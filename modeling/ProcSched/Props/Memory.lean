/-
  ProcSched.Props.Memory

  main gets the table from malloc and fills name, ready and exec only.  FIFO,
  SJF and RR write the pids before they read them and never look at `waiting`;
  PSJF reads the `waiting` field of every entry from its first iteration on, and
  initialises it nowhere.  What was in memory does not show exactly if in the
  run on a clean table every process that has not arrived is always preceded by
  an eligible one.
-/

import ProcSched.Refine.Garbage
import ProcSched.Refine.Policy
import ProcSched.Refine.Positions
import ProcSched.Refine.Waiting

namespace ProcSched

/-- No process is selected before its ready time. -/
def Policy.SelectsReady (P : Policy) (os : Os) (q : Qsort) (V : List Process) : Prop :=
  ∀ k c i, (c, Mark.select i) ∈ (P.run os q V k).state.log.marks →
    (entry (P.table q V) i).ready ≤ c

/-- Whatever was in the fields main does not fill, the runs show the same and
    select no process too early. -/
def MemoryIrrelevant (os : Os) (q : Qsort) (R : List Record) : Prop :=
  ∀ (P : Policy) (V V' : List Process), V.map Process.record = R → V'.map Process.record = R →
    (∀ k, (P.run os q V k).map Snapshot.observed = (P.run os q V' k).map Snapshot.observed) ∧
      P.SelectsReady os q V

/-- At every clock of the PSJF run on a clean table, every process that has not
    arrived is preceded by an arrived unfinished one: by one with less `exec`, or
    as much and listed before it. -/
def Psjf.Covered (os : Os) (W : List Process) : Prop :=
  ∀ k s, Psjf.psjf os W k = .next s → ∀ i < W.length, (s.time : Int) < (entry s.proc i).ready →
    ∃ j < W.length, (entry s.proc j).ready ≤ s.time ∧ 0 < (entry s.proc j).exec ∧
      ((entry s.proc j).exec < (entry s.proc i).exec ∨
        (entry s.proc j).exec = (entry s.proc i).exec ∧ j < i)

theorem record_cleanTable (R : List Record) : (cleanTable R).map Process.record = R := by
  rw [cleanTable, List.map_map]
  exact List.map_id R

theorem zeroWaiting_cleanTable (R : List Record) : ZeroWaiting (cleanTable R) := by
  intro p hp
  obtain ⟨r, -, rfl⟩ := List.mem_map.mp hp
  rfl

/-- Selections are made along the schedule. -/
theorem Describes.run_of_select {run : ℕ → Outcome Snapshot} {W : List Process} {law : ChoiceLaw}
    {σ : Schedule ℕ} {delay T : ℕ} (h : Describes run W law σ delay T) {k c i : ℕ}
    (hm : (c, Mark.select i) ∈ (run k).state.log.marks) : σ c = some i := by
  rw [h.mem_marks fun _ => Mark.noConfusion] at hm
  exact (select_mem_trace.mp hm).2

/-- A run that needs no luck with its memory selects arrived processes. -/
theorem Policy.selectsReady {P : Policy} {os : Os} {q : Qsort} {V : List Process}
    (hos : os.Healthy) (hV : WellFormed V) (hz : P.Fresh V) : P.SelectsReady os q V := by
  intro k c i hm
  have hd := P.describes (q := q) hos hV hz
  have hel := hd.legal c i (hd.run_of_select hm)
  have hi := mem_jobsOf.mp hel.mem
  have hrel := (P.table_wellFormed (q := q) hV).release_eq hi
  have := hel.released
  omega

/-- A table in which the `waiting` field of one entry happens to be 1. -/
def flagged (W : List Process) (i : ℕ) : List Process := W.modify i fun p => { p with waiting := 1 }

theorem record_flagged (W : List Process) (i : ℕ) :
    (flagged W i).map Process.record = W.map Process.record := by
  apply List.ext_getElem (by simp [flagged])
  intro j h₁ h₂
  simp only [flagged, List.getElem_map, List.getElem_modify]
  split <;> rfl

theorem waiting_flagged_iff {W : List Process} (hz : ZeroWaiting W) (i : ℕ) {j : ℕ}
    (hj : j < W.length) : (entry (flagged W i) j).waiting = 1 ↔ j = i := by
  rw [flagged, entry_modify hj]
  by_cases hji : j = i
  · rw [if_pos hji]
    exact iff_of_true rfl hji
  · rw [if_neg hji, hz _ (entry_mem hj)]
    exact iff_of_false (by omega) hji

namespace Psjf

variable {os : Os} {W V : List Process} {k i : ℕ} {s : State} (hos : os.Healthy)
  (hW : WellFormed W) (hz : ZeroWaiting W)
include hos hW hz

/-- `Covered` for one process at one clock, in terms of the schedule. -/
theorem covered_iff (hs : psjf os W k = .next s) (hi : i < W.length) :
    (∃ j < W.length, (entry s.proc j).ready ≤ s.time ∧ 0 < (entry s.proc j).exec ∧
      ((entry s.proc j).exec < (entry s.proc i).exec ∨
        (entry s.proc j).exec = (entry s.proc i).exec ∧ j < i)) ↔
      ∃ j, (jobsOf W).Eligible (followed os (start os W)) k j ∧
        Precedes W (followed os (start os W)) k j i := by
  obtain ⟨hI, hB⟩ := inv_of_next hos hW hz hs
  have hexec := fun j hj => hI.exec_eq_left hW hB (i := j) hj
  constructor
  · rintro ⟨j, hj, hr, hp, hlt⟩
    rw [hexec j hj, hexec i hi] at hlt
    refine ⟨j, (hI.eligible_iff hW hB hj).mpr ⟨hr, hp⟩, ?_⟩
    rw [Precedes]
    omega
  · rintro ⟨j, hj, hprec⟩
    have hj' := mem_jobsOf.mp hj.mem
    obtain ⟨hr, hp⟩ := (hI.eligible_iff hW hB hj').mp hj
    rw [Precedes] at hprec
    refine ⟨j, hj', hr, hp, ?_⟩
    rw [hexec j hj', hexec i hi]
    omega

theorem lt_ready_iff (hs : psjf os W k = .next s) (hi : i < W.length) :
    (s.time : Int) < (entry s.proc i).ready ↔ k < (jobsOf W).release i := by
  obtain ⟨hI, -⟩ := inv_of_next hos hW hz hs
  have hready := hI.tracks.ready_eq i hi
  have hrel := hW.release_eq hi
  have htime : s.time = k := hI.time
  omega

/-- A process that has not arrived keeps the run going. -/
theorem next_of_lt_release (hi : i < W.length) (hlt : k < (jobsOf W).release i) :
    ∃ s, psjf os W k = .next s := by
  obtain ⟨T, hC, hnext, -⟩ := run_spec hos hW hz
  have hk : k ≤ T := by
    by_contra hgt
    have h₁ := hC.finished i (mem_jobsOf.mpr hi)
    have h₂ := hW.jobs_length_pos hi
    rw [hC.legal.served_eq_zero (by omega)] at h₁
    omega
  obtain ⟨s, hs, -⟩ := hnext k hk
  exact ⟨s, hs⟩

theorem Covered.covers (h : Covered os W) (V : List Process) (k : ℕ) :
    Covers W V (followed os (start os W)) k := by
  intro i hi hlt _
  obtain ⟨s, hs⟩ := next_of_lt_release hos hW hz hi hlt
  exact (covered_iff hos hW hz hs hi).mp (h k s hs i hi ((lt_ready_iff hos hW hz hs hi).mpr hlt))

/-- A flagged process that is not preceded is selected before it arrives. -/
theorem early_of_not_covered (hi : i < W.length) (hlt : k < (jobsOf W).release i)
    (hbefore : ∀ k' < k, Covers W (flagged W i) (followed os (start os W)) k')
    (hno : ∀ j, (jobsOf W).Eligible (followed os (start os W)) k j →
      ¬ Precedes W (followed os (start os W)) k j i) :
    (k, Mark.select i) ∈ (psjf os (flagged W i) (k + 1)).state.log.marks := by
  obtain ⟨s, hs⟩ := next_of_lt_release hos hW hz hi hlt
  obtain ⟨hI, hB⟩ := inv_of_next hos hW hz hs
  have hrel := run_agrees hos hW hz (record_flagged W i) k hbefore k (Nat.le_refl k)
  rw [hs] at hrel
  obtain ⟨t, ht, hA⟩ : ∃ t, psjf os (flagged W i) k = .next t ∧
      Agrees (flagged W i) s.time s t := by
    cases hrun : psjf os (flagged W i) k with
    | next t =>
        rw [hrun] at hrel
        cases hrel with
        | next hA => exact ⟨t, rfl, hA⟩
    | _ =>
        rw [hrun] at hrel
        cases hrel
  have hwaits : Waits W (flagged W i) (followed os (start os W)) k i :=
    Or.inr ⟨hi, hlt, (waiting_flagged_iff hz i hi).mpr rfl⟩
  obtain ⟨t', hstep, hmark⟩ := step_selects hos hW hI hB hA hwaits fun j hj hji => by
    -- nobody else is flagged
    have hel : (jobsOf W).Eligible (followed os (start os W)) k j := by
      rcases hj with hel | ⟨hj, -, hw⟩
      · exact hel
      · exact absurd ((waiting_flagged_iff hz i hj).mp hw) hji
    have := hno j hel
    rw [Precedes] at this ⊢
    omega
  rw [psjf, Outcome.run_succ_of_next ht, hstep, Outcome.state_next]
  exact hmark

/-- If no process is ever selected too early, the processes to come are always
    covered. -/
theorem covered_of_selectsReady (q : Qsort)
    (h : ∀ i, Policy.psjf.SelectsReady os q (flagged W i)) : Covered os W := by
  intro k
  induction k using Nat.strongRecOn with
  | ind k ih =>
      intro s hs i hi hlt
      have hlt' := (lt_ready_iff hos hW hz hs hi).mp hlt
      rw [covered_iff hos hW hz hs hi]
      by_contra hno
      push Not at hno
      have hbefore : ∀ k' < k, Covers W (flagged W i) (followed os (start os W)) k' := by
        intro k' hk' j hj hltj hw
        obtain rfl := (waiting_flagged_iff hz i hj).mp hw
        obtain ⟨s', hs'⟩ := next_of_lt_release hos hW hz hj hltj
        exact (covered_iff hos hW hz hs' hj).mp
          (ih k' hk' s' hs' j hj ((lt_ready_iff hos hW hz hs' hj).mpr hltj))
      have hready := h i (k + 1) k i (by
        rw [Policy.run, Outcome.state_map]
        exact early_of_not_covered hos hW hz hi hlt' hbefore hno)
      have hrec : (entry (flagged W i) i).ready = (entry W i).ready :=
        congrArg Record.ready (record_eq_of_map (record_flagged W i) i)
      have hrel := hW.release_eq hi
      rw [Policy.table, hrec] at hready
      omega

end Psjf

/-- If the processes to come are always covered, memory does not show. -/
theorem Psjf.Covered.irrelevant {os : Os} {R : List Record} (h : Psjf.Covered os (cleanTable R))
    (q : Qsort) (hos : os.Healthy) (hR : WellFormed (cleanTable R)) :
    MemoryIrrelevant os q R := by
  have hz := zeroWaiting_cleanTable R
  have hclean := record_cleanTable R
  have hsame : ∀ (P : Policy) (V : List Process), V.map Process.record = R → ∀ k,
      (P.run os q V k).map Snapshot.observed =
        (P.run os q (cleanTable R) k).map Snapshot.observed := by
    intro P V hV k
    by_cases hP : P = .psjf
    · subst hP
      have hrel := Psjf.run_agrees hos hR hz (hV.trans hclean.symm) k
        (fun k' _ => h.covers hos hR hz V k') k (Nat.le_refl k)
      rw [Policy.run, Policy.run, Outcome.map_map, Outcome.map_map]
      refine (hrel.map_eq fun s t hA => ?_).symm
      obtain ⟨proc', rfl, -⟩ := hA
      rfl
    · exact Policy.observed_eq hP (hV.trans hclean.symm) os q k
  intro P V V' hV hV'
  refine ⟨fun k => (hsame P V hV k).trans (hsame P V' hV' k).symm, ?_⟩
  by_cases hP : P = .psjf
  · subst hP
    intro k c i hm
    have hlog : (Policy.psjf.run os q V k).state.log =
        (Policy.psjf.run os q (cleanTable R) k).state.log := by
      have := congrArg (fun o => o.state.2.2) (hsame .psjf V hV k)
      rwa [Outcome.state_map, Outcome.state_map] at this
    rw [hlog] at hm
    have hle := Policy.selectsReady (P := .psjf) hos hR (fun _ => hz) k c i hm
    have hready : (entry V i).ready = (entry (cleanTable R) i).ready :=
      congrArg Record.ready (record_eq_of_map (hV.trans hclean.symm) i)
    exact hready.le.trans hle
  · have hperm : SameRecords (cleanTable R) V := by
      rw [SameRecords, hclean, hV]
    exact Policy.selectsReady hos (hperm.wellFormed hR) fun he => absurd he hP

/-- What main leaves in memory does not show, under any scheduler, exactly if in
    the PSJF run on a clean table every process to come is always covered. -/
theorem memory_irrelevant_iff (os : Os) (q : Qsort) (R : List Record) (hos : os.Healthy)
    (hR : WellFormed (cleanTable R)) :
    MemoryIrrelevant os q R ↔ Psjf.Covered os (cleanTable R) := by
  refine ⟨fun h => ?_, fun h => h.irrelevant q hos hR⟩
  apply Psjf.covered_of_selectsReady hos hR (zeroWaiting_cleanTable R) q
  intro i
  have hrec := (record_flagged (cleanTable R) i).trans (record_cleanTable R)
  exact (h .psjf _ _ hrec hrec).2

theorem memory_irrelevant_iff_readme :
    MemoryIrrelevant Os.counting Qsort.insertion readmeRecords ↔
      Psjf.Covered Os.counting (cleanTable readmeRecords) :=
  memory_irrelevant_iff Os.counting Qsort.insertion readmeRecords Os.counting_healthy (by decide)

/-- With a 1 in the `waiting` field of P2, PSJF selects P2 at clock 0, before it
    has a child. -/
theorem readme_memory_shows :
    Os.counting.Healthy ∧ WellFormed (cleanTable readmeRecords) ∧
      ¬ MemoryIrrelevant Os.counting Qsort.insertion readmeRecords := by
  refine ⟨Os.counting_healthy, by decide, fun h => ?_⟩
  have hready := (h .psjf
    ((cleanTable readmeRecords).modify 1 fun p => { p with waiting := 1 })
    (cleanTable readmeRecords) (by decide) (by decide)).2 1 0 1 (by decide)
  exact absurd hready (by decide)

end ProcSched
