/-
  ProcSched.Props.Online

  The schedulers are online: what they do up to time `T` depends only on the
  processes ready by then.  Two runs on workloads that share those processes,
  in file order, log the same events up to time `T`, whatever arrives later and
  wherever it stands in the file.
-/

import ProcSched.Props.Integrity
import ProcSched.Refine.Prefix

namespace ProcSched

/-- The kind of a mark. -/
inductive MarkKind where
  | fork
  | select
  | switch
  | decrement
  | finish
  deriving DecidableEq

def Mark.kind : Mark → MarkKind
  | fork _ => .fork
  | select _ => .select
  | switch _ => .switch
  | decrement _ => .decrement
  | finish _ => .finish

/-- The table entry a mark is about. -/
def Mark.index : Mark → ℕ
  | fork i => i
  | select i => i
  | switch i => i
  | decrement i => i
  | finish i => i

/-- Marks with the records of the processes instead of their positions. -/
def named (W : List Process) (l : List (ℕ × Mark)) : List (ℕ × MarkKind × Record) :=
  l.map fun e => (e.1, e.2.kind, (entry W e.2.index).record)

/-- The events of a snapshot at clocks up to `T`, by process. -/
def Policy.eventsUpTo (P : Policy) (q : Qsort) (W : List Process) (T : ℕ) (s : Snapshot) :
    List (ℕ × MarkKind × Record) :=
  named (P.table q W) (s.log.marks.filter fun e => e.1 ≤ T)

theorem named_append (W : List Process) (l m : List (ℕ × Mark)) :
    named W (l ++ m) = named W l ++ named W m :=
  List.map_append

theorem named_filter (W : List Process) (T : ℕ) (l : List (ℕ × Mark)) :
    named W (l.filter fun e => e.1 ≤ T) = (named W l).filter fun e => e.1 ≤ T := by
  rw [named, named, List.filter_map]
  rfl

/-! ## Corresponding traces -/

section Traces

variable {V W : List Process} {T u : ℕ} {f : ℕ → ℕ} {σ τ : Schedule ℕ}

/-- The forks at a time are those of the processes ready then. -/
theorem named_forkMarks (hW : WellFormed W) (hu : u ≤ T) :
    named W (forkMarks W u) =
      ((recordsBy W T).filter fun r => r.ready = (u : Int)).map fun r => (u, .fork, r) := by
  have hready : ∀ i < W.length, ((jobsOf W).release i = u ↔ (entry W i).ready = u) := fun i hi => by
    rw [← hW.release_eq hi]
    exact Nat.cast_inj.symm
  have hfilter : (W.filter fun p => p.ready = (u : Int)).filter (fun p => p.ready ≤ (T : Int)) =
      W.filter fun p => p.ready = (u : Int) := by
    apply List.filter_eq_self.mpr
    intro p hp
    have := (List.mem_filter.mp hp).2
    simp only [decide_eq_true_eq] at this ⊢
    omega
  rw [filter_recordsBy, hfilter, filter_eq_map_range, named, forkMarks, List.map_map, List.map_map,
    List.map_map]
  rw [List.filter_congr (q := fun i => decide ((entry W i).ready = (u : Int))) fun i hi => by
    simp only [hready i (List.mem_range.mp hi)]]
  rfl

/-- A process run by time `T` is one of the common ones. -/
theorem mem_of_run (hL : (jobsOf V).Legal σ) (hu : u ≤ T) {i : ℕ} (hi : σ u = some i) :
    i ∈ positionsBy V T := by
  have hel := hL u i hi
  exact mem_positionsBy_iff.mpr ⟨hel.mem, hel.released.trans hu⟩

variable (h : Common V W T f) (hL : (jobsOf V).Legal σ) (hF : ∀ t, t ≤ T → τ t = (σ t).map f)
include h hL hF

theorem served_succ_common (hu : u ≤ T) {i : ℕ} (hi : i ∈ positionsBy V T) :
    τ.served (u + 1) (f i) = σ.served (u + 1) i := by
  obtain ⟨hmem, hT⟩ := mem_positionsBy_iff.mp hi
  have hbefore : Jobs.Follows f σ τ u := fun v hv => hF v (by omega)
  rw [Schedule.served_succ, Schedule.served_succ, h.matches.served_eq hL hu hbefore hmem hT,
    hF u hu]
  simp only [h.matches.map_eq_iff hL hu hmem hT]

theorem ended_common (hu : u ≤ T) :
    (jobsOf W).ended τ (u + 1) = ((jobsOf V).ended σ (u + 1)).map f := by
  simp only [Jobs.ended, Schedule.prev_succ, hF u hu]
  cases hσ : σ u with
  | none => rfl
  | some i =>
      have hi := mem_of_run hL hu hσ
      obtain ⟨hmem, hT⟩ := mem_positionsBy_iff.mp hi
      simp only [Option.map_some, Option.filter_some, served_succ_common h hL hF hu hi,
        h.matches.length i hmem hT]
      split <;> rfl

theorem prev_common (hu : u ≤ T) {i : ℕ} (hi : i ∈ positionsBy V T) :
    τ.prev u = some (f i) ↔ σ.prev u = some i := by
  obtain ⟨hmem, hT⟩ := mem_positionsBy_iff.mp hi
  cases u with
  | zero => simp
  | succ v =>
      rw [Schedule.prev_succ, Schedule.prev_succ, hF v (by omega)]
      exact h.matches.map_eq_iff hL (by omega) hmem hT

/-- The runs leave corresponding traces. -/
theorem named_trace (hV : WellFormed V) (hW : WellFormed W)
    (hrec : recordsBy V T = recordsBy W T) {delay : ℕ} (t : ℕ) (ht : t ≤ T + 1) :
    named V (trace V σ delay t) = named W (trace W τ delay t) := by
  induction t with
  | zero => rfl
  | succ t ih =>
      have ht' : t ≤ T := by omega
      have hfork : named V (forkMarks V t) = named W (forkMarks W t) := by
        rw [named_forkMarks hV ht', named_forkMarks hW ht', hrec]
      have hunit : named V (unitMarks t (σ t) (σ.prev t ≠ σ t)) =
          named W (unitMarks t (τ t) (τ.prev t ≠ τ t)) := by
        rw [hF t ht']
        cases hσ : σ t with
        | none => rfl
        | some i =>
            have hi := mem_of_run hL ht' hσ
            have hprev := prev_common h hL hF ht' hi
            have hrecord := h.record i hi
            by_cases hsame : σ.prev t = some i
            · simp [unitMarks, named, hprev.mpr hsame, hsame, Mark.kind, Mark.index, hrecord]
            · have hsame' : ¬ τ.prev t = some (f i) := fun he => hsame (hprev.mp he)
              simp [unitMarks, named, hsame, hsame', Mark.kind, Mark.index, hrecord]
      have hfinish : named V (finishMarks (t + delay) ((jobsOf V).ended σ (t + 1))) =
          named W (finishMarks (t + delay) ((jobsOf W).ended τ (t + 1))) := by
        rw [ended_common h hL hF ht']
        cases hend : (jobsOf V).ended σ (t + 1) with
        | none => rfl
        | some i =>
            have hi := mem_of_run hL ht' (Jobs.ended_eq_some.mp hend).1
            simp [finishMarks, named, Mark.kind, Mark.index, h.record i hi]
      rw [trace_succ, trace_succ, named_append, named_append, named_append, named_append,
        named_append, named_append, ih (by omega), hfork, hunit, hfinish]

end Traces

/-- A complete run leaves the same events up to time `T` as its first `T + 1`
    units. -/
theorem Describes.trace_filter {run : ℕ → Outcome Snapshot} {W : List Process} {law : ChoiceLaw}
    {σ : Schedule ℕ} {delay n : ℕ} (hd : Describes run W law σ delay n) (hW : WellFormed W)
    (T : ℕ) : (trace W σ delay n).filter (fun e => e.1 ≤ T) =
      (trace W σ delay (T + 1)).filter fun e => e.1 ≤ T := by
  rcases Nat.lt_or_ge T n with hlt | hge
  · -- later units are logged later
    obtain ⟨after, hsplit, hafter⟩ := trace_split W σ delay hlt
    have hnil : after.filter (fun e => e.1 ≤ T) = [] := by
      apply List.filter_eq_nil_iff.mpr
      intro x hx
      obtain ⟨v, hv, -, hm⟩ := hafter x hx
      have hclock : v ≤ x.1 := by
        rcases hm with hm | hm | hm
        · exact (mem_forkMarks.mp hm).1.ge
        · exact (mem_unitMarks.mp hm).1.ge
        · have := (mem_finishMarks.mp hm).1
          omega
      simp only [decide_eq_true_eq]
      omega
    rw [hsplit, List.filter_append, hnil, List.append_nil]
  · -- after the last unit nothing is logged any more
    have hidle : ∀ v, n ≤ v → trace W σ delay v = trace W σ delay n := by
      intro v hv
      induction v, hv using Nat.le_induction with
      | base => rfl
      | succ v hv ih =>
          have hσ := hd.toCompletes.idle hv
          have hfork : forkMarks W v = [] := by
            rw [forkMarks, List.map_eq_nil_iff, List.filter_eq_nil_iff]
            intro i hi
            obtain ⟨u, hu, hrun, -⟩ := hd.exists_last hW (List.mem_range.mp hi)
            have := (hd.legal u i hrun).released
            simp only [decide_eq_true_eq]
            omega
          have hend : (jobsOf W).ended σ (v + 1) = none := by
            rw [Jobs.ended, Schedule.prev_succ, hσ]
            rfl
          rw [trace_succ, hfork, hσ, hend]
          simp only [unitMarks, finishMarks, List.append_nil]
          exact ih
    rw [hidle (T + 1) (by omega)]

/-- On workloads with the same processes ready by time `T`, in the same order,
    each scheduler ends and logs the same events at clocks up to `T`. -/
theorem Policy.online (P : Policy) (os os' : Os) (q : Qsort) (V W : List Process) (T : ℕ)
    (hos : os.Healthy) (hos' : os'.Healthy) (hq : q.Stable) (hV : WellFormed V)
    (hW : WellFormed W) (hzV : P.Fresh V) (hzW : P.Fresh W)
    (hrec : recordsBy V T = recordsBy W T) :
    ∃ k s k' s', P.run os q V k = .done s ∧ P.run os' q W k' = .done s' ∧
      P.eventsUpTo q V T s = P.eventsUpTo q W T s' := by
  have hdV := P.describes (q := q) hos hV hzV
  have hdW := P.describes (q := q) hos' hW hzW
  have hTV := P.table_wellFormed (q := q) hV
  have hTW := P.table_wellFormed (q := q) hW
  have hrec' := recordsBy_table (P := P) hq hV hW hrec
  obtain ⟨f, hf⟩ := exists_common hrec'
  have hF := (P.law hos hV hzV).matching hf.matches hf.keepsOrder (P.law hos' hW hzW)
  obtain ⟨s, hs, hclose⟩ := hdV.done _ (Nat.lt_succ_self _)
  obtain ⟨s', hs', hclose'⟩ := hdW.done _ (Nat.lt_succ_self _)
  refine ⟨_, s, _, s', hs, hs', ?_⟩
  rw [Policy.eventsUpTo, Policy.eventsUpTo, hclose.marks, hclose'.marks, hdV.trace_filter hTV,
    hdW.trace_filter hTW, named_filter, named_filter,
    named_trace hf hdV.legal hF hTV hTW hrec' (T + 1) (Nat.le_refl _)]

/-- The test of README.md, and the same with a short process in front of it that
    arrives at 3000. -/
theorem Policy.online_readme :
    ∃ k s k' s', psjf.run Os.counting Qsort.insertion readmeWorkload k = .done s ∧
      psjf.run Os.counting Qsort.insertion
        (Record.load ⟨"P0", 3000, 10⟩ :: readmeWorkload) k' = .done s' ∧
      psjf.eventsUpTo Qsort.insertion readmeWorkload 2999 s =
        psjf.eventsUpTo Qsort.insertion
          (Record.load ⟨"P0", 3000, 10⟩ :: readmeWorkload) 2999 s' :=
  Policy.online psjf Os.counting Os.counting Qsort.insertion readmeWorkload
    (Record.load ⟨"P0", 3000, 10⟩ :: readmeWorkload) 2999 Os.counting_healthy
    Os.counting_healthy Qsort.insertion_stable (by decide) (by decide) (fun _ => by decide)
    (fun _ => by decide) (by decide)

end ProcSched
