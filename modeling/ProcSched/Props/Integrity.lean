/-
  ProcSched.Props.Integrity

  Run integrity of the four schedulers: every process is forked once, at its
  ready time, gets exactly its units, and is counted once, right after its last
  unit; the loop stops when the last process has been counted.

  The stamps of a mark in a trace have a closed form in terms of the schedule
  (`stampsOf_fork_trace`, `stampsOf_decrement_trace`), from which the fields of
  `Integrity` are read off.  The calls of `fork` are those of `Refine.Forks`.
-/

import ProcSched.Refine.Forks

namespace ProcSched

/-- A mark of the finish counter. -/
def Mark.isFinish : Mark → Bool
  | .finish _ => true
  | _ => false

/-- The table `W` was run through with integrity: `run` is left after `T` units
    with the snapshot `s`. -/
structure Integrity (run : ℕ → Outcome Snapshot) (W : List Process) (T : ℕ) (s : Snapshot) :
    Prop where
  /-- `T` iterations go on, the next one leaves the loop -/
  finite : (∀ k ≤ T, ∃ s', run k = .next s') ∧ run (T + 1) = .done s
  /-- forked once, when the clock is the ready time -/
  forked : ∀ i < W.length, ∃ r : ℕ, (r : Int) = (entry W i).ready ∧
    s.log.stamps (.fork i) = [r]
  /-- `fork` is called once for each process, at its ready time, and for nothing
      else; what it returns is the pid of the entry -/
  calls : s.log.forkCalls.Perm ((List.range W.length).map fun i =>
    ((entry W i).ready.toNat, (entry s.proc i).pid))
  /-- the pids are all different -/
  pids : ∀ i < W.length, ∀ j < W.length, (entry s.proc i).pid = (entry s.proc j).pid → i = j
  /-- decremented in as many iterations as `exec` says -/
  units : ∀ i < W.length, ((s.log.stamps (.decrement i)).length : Int) = (entry W i).exec ∧
    (s.log.stamps (.decrement i)).Pairwise (· < ·)
  /-- in every state the counter is lower by these decrements, and no others -/
  counter : ∀ k, ∀ i < W.length, (entry (run k).state.proc i).exec =
    (entry W i).exec - ((run k).state.log.stamps (.decrement i)).length
  /-- never before the ready time -/
  released : ∀ i < W.length, ∀ t ∈ s.log.stamps (.decrement i), (entry W i).ready ≤ t
  /-- one process per iteration, and none that does not exist -/
  single : ∀ t i j, t ∈ s.log.stamps (.decrement i) → t ∈ s.log.stamps (.decrement j) →
    i < W.length ∧ i = j
  /-- counted once, between its last unit and any later unit -/
  counted : ∀ i < W.length, ∃ before c c' after,
    s.log.marks = before ++ [(c, .decrement i), (c', .finish i)] ++ after ∧
      (∀ t, (t, .decrement i) ∉ after) ∧ ∀ t, (t, .finish i) ∉ before ++ after
  /-- in every state the finish counter is the number of these marks -/
  finished : ∀ k, (run k).state.finished = (run k).state.log.marks.countP fun e => e.2.isFinish
  /-- no counter is negative in any state -/
  nonneg : ∀ k, ∀ i < W.length, 0 ≤ (entry (run k).state.proc i).exec
  /-- and the clock stays an `int` -/
  clock : ∀ k, ((run k).state.clock : Int) ≤ intMax
  /-- the loop goes on while somebody is not counted -/
  going : ∀ k s', run k = .next s' → (∃ s'', run (k + 1) = .next s'') → s'.finished < W.length
  /-- and stops right after counting the last one -/
  stopped : s.finished = W.length ∧ ∃ before c i, s.log.marks = before ++ [(c, .finish i)]

/-- The clocks of a mark in a list of marks. -/
def stampsOf (l : List (ℕ × Mark)) (m : Mark) : List ℕ := (l.filter fun e => e.2 = m).map Prod.fst

theorem stamps_eq (log : Log) (m : Mark) : log.stamps m = stampsOf log.marks m := rfl

theorem stampsOf_append (l l' : List (ℕ × Mark)) (m : Mark) :
    stampsOf (l ++ l') m = stampsOf l m ++ stampsOf l' m := by
  rw [stampsOf, List.filter_append, List.map_append]
  rfl

section Stamps

variable {W : List Process} {σ : Schedule ℕ} {delay t : ℕ} {i : ℕ}

theorem mem_stampsOf {l : List (ℕ × Mark)} {m : Mark} : t ∈ stampsOf l m ↔ (t, m) ∈ l := by
  simp only [stampsOf, List.mem_map, List.mem_filter, decide_eq_true_eq]
  constructor
  · rintro ⟨⟨c, m'⟩, ⟨hm, rfl⟩, rfl⟩
    exact hm
  · intro hm
    exact ⟨(t, m), ⟨hm, rfl⟩, rfl⟩

theorem stampsOf_eq_nil {l : List (ℕ × Mark)} {m : Mark} (h : ∀ c, (c, m) ∉ l) :
    stampsOf l m = [] :=
  List.eq_nil_iff_forall_not_mem.mpr fun c hc => h c (mem_stampsOf.mp hc)

/-- The fork scan at clock `t` forks an entry at most once. -/
theorem stampsOf_fork_forkMarks (hi : i < W.length) :
    stampsOf (forkMarks W t) (.fork i) = if (jobsOf W).release i = t then [t] else [] := by
  have hfilter : ∀ n, i < n → (List.range n).filter (fun j => j = i) = [i] := fun n hn => by
    rw [List.filter_eq, List.count_eq_one_of_mem List.nodup_range (List.mem_range.mpr hn)]
    rfl
  have hcomp : ((fun e : ℕ × Mark => decide (e.2 = Mark.fork i)) ∘ fun j => (t, Mark.fork j))
      = fun j => decide (j = i) := by
    funext j
    simp
  rw [stampsOf, forkMarks, List.filter_map, hcomp, List.filter_filter, List.map_map]
  have hswap : (List.range W.length).filter (fun j => decide (j = i) &&
      decide ((jobsOf W).release j = t)) = ((List.range W.length).filter (fun j => j = i)).filter
        fun j => decide ((jobsOf W).release j = t) := by
    rw [List.filter_filter]
    congr 1
    funext j
    exact Bool.and_comm _ _
  rw [hswap, hfilter _ hi]
  by_cases h : (jobsOf W).release i = t <;> simp [h]

theorem stampsOf_fork_trace (hi : i < W.length) :
    stampsOf (trace W σ delay t) (.fork i) =
      (List.range t).filter fun u => (jobsOf W).release i = u := by
  induction t with
  | zero => rfl
  | succ t ih =>
      have hunit : ∀ c, (c, Mark.fork i) ∉ unitMarks t (σ t) (σ.prev t ≠ σ t) ++
          finishMarks (t + delay) ((jobsOf W).ended σ (t + 1)) := by
        intro c hc
        rcases List.mem_append.mp hc with hc | hc
        · obtain ⟨-, j, -, hj⟩ := mem_unitMarks.mp hc
          simp at hj
        · obtain ⟨-, j, -, hj⟩ := mem_finishMarks.mp hc
          cases hj
      rw [trace_succ, List.append_assoc, stampsOf_append, stampsOf_append, ih,
        stampsOf_fork_forkMarks hi, stampsOf_eq_nil hunit, List.append_nil, List.range_succ,
        List.filter_append]
      by_cases h : (jobsOf W).release i = t <;> simp [h]

theorem stampsOf_decrement_trace :
    stampsOf (trace W σ delay t) (.decrement i) = (List.range t).filter fun u => σ u = some i := by
  induction t with
  | zero => rfl
  | succ t ih =>
      have hfork : ∀ c, (c, Mark.decrement i) ∉ forkMarks W t := by
        intro c hc
        obtain ⟨-, j, hj, -⟩ := mem_forkMarks.mp hc
        cases hj
      have hfinish : ∀ c, (c, Mark.decrement i) ∉
          finishMarks (t + delay) ((jobsOf W).ended σ (t + 1)) := by
        intro c hc
        obtain ⟨-, j, -, hj⟩ := mem_finishMarks.mp hc
        cases hj
      have hunit : stampsOf (unitMarks t (σ t) (σ.prev t ≠ σ t)) (.decrement i) =
          [t].filter fun u => σ u = some i := by
        cases hσ : σ t with
        | none => simp [stampsOf, unitMarks, hσ]
        | some j =>
            by_cases hprev : σ.prev t = some j <;> by_cases hji : j = i <;>
              simp [stampsOf, unitMarks, hσ, hprev, hji]
      rw [trace_succ, stampsOf_append, stampsOf_append, stampsOf_append, ih,
        stampsOf_eq_nil hfork, stampsOf_eq_nil hfinish, hunit, List.nil_append, List.append_nil,
        List.range_succ, List.filter_append]

/-- The units before `t` are counted by their clocks. -/
theorem length_units (σ : Schedule ℕ) (t i : ℕ) :
    ((List.range t).filter fun u => σ u = some i).length = σ.served t i := by
  induction t with
  | zero => rfl
  | succ t ih =>
      rw [List.range_succ, List.filter_append, List.length_append, ih, Schedule.served_succ]
      by_cases h : σ t = some i <;> simp [h]

theorem countP_finishMarks (t : ℕ) (o : Option ℕ) :
    (finishMarks t o).countP (fun e => e.2.isFinish) = o.toList.length := by
  cases o <;> rfl

/-- The finishes before `t` are counted by their marks. -/
theorem countP_trace (hW : WellFormed W) (hL : (jobsOf W).Legal σ) :
    (trace W σ delay t).countP (fun e => e.2.isFinish) = (jobsOf W).completed σ t := by
  induction t with
  | zero => exact hW.completed_zero.symm
  | succ t ih =>
      have hfork : (forkMarks W t).countP (fun e => e.2.isFinish) = 0 :=
        List.countP_eq_zero.mpr fun e he => by
          obtain ⟨-, j, hj, -⟩ := mem_forkMarks.mp he
          rw [hj]
          exact Bool.false_ne_true
      have hunit : (unitMarks t (σ t) (σ.prev t ≠ σ t)).countP (fun e => e.2.isFinish) = 0 :=
        List.countP_eq_zero.mpr fun e he => by
          obtain ⟨-, j, -, hj | ⟨-, hj⟩ | hj⟩ := mem_unitMarks.mp he <;>
            (rw [hj]; exact Bool.false_ne_true)
      rw [trace_succ, List.countP_append, List.countP_append, List.countP_append, ih, hfork, hunit,
        countP_finishMarks, Nat.add_zero, Nat.zero_add, Jobs.length_ended,
        Jobs.completed_succ (hL t)]

/-- The marks after those of unit `u` belong to later units. -/
theorem trace_split (W : List Process) (σ : Schedule ℕ) (delay : ℕ) {t u : ℕ} (hu : u < t) :
    ∃ after, trace W σ delay t = trace W σ delay (u + 1) ++ after ∧
      ∀ x ∈ after, ∃ v, u < v ∧ v < t ∧ (x ∈ forkMarks W v ∨
        x ∈ unitMarks v (σ v) (σ.prev v ≠ σ v) ∨
        x ∈ finishMarks (v + delay) ((jobsOf W).ended σ (v + 1))) := by
  obtain ⟨d, rfl⟩ := Nat.exists_eq_add_of_lt hu
  clear hu
  induction d with
  | zero => exact ⟨[], by rw [List.append_nil, Nat.add_zero], fun x hx => by simp at hx⟩
  | succ d ih =>
      obtain ⟨after, heq, hafter⟩ := ih
      refine ⟨_, by rw [← Nat.add_assoc u d 1, trace_succ, heq, List.append_assoc], fun x hx => ?_⟩
      rcases List.mem_append.mp hx with hx | hx
      · obtain ⟨v, hv, hlt, hmem⟩ := hafter x hx
        exact ⟨v, hv, by omega, hmem⟩
      · rw [List.mem_append, List.mem_append] at hx
        exact ⟨u + d + 1, by omega, by omega, or_assoc.mp hx⟩

end Stamps

/-! ## Integrity of a described run -/

namespace Describes

variable {run : ℕ → Outcome Snapshot} {W : List Process} {law : ChoiceLaw} {σ : Schedule ℕ}
  {delay T : ℕ} (h : Describes run W law σ delay T)
include h

theorem served_eq_length {i : ℕ} (hi : i < W.length) :
    σ.served T i = (jobsOf W).length i :=
  Nat.le_antisymm (h.legal.served_le T) (h.finished i (mem_jobsOf.mpr hi))

/-- Every process has a last unit. -/
theorem exists_last (hW : WellFormed W) {i : ℕ} (hi : i < W.length) :
    ∃ u < T, σ u = some i ∧ (jobsOf W).ended σ (u + 1) = some i := by
  obtain ⟨c, hc, hend⟩ :=
    Jobs.exists_ended (hW.jobs_length_pos hi) (h.finished i (mem_jobsOf.mpr hi))
  obtain ⟨u, rfl, hrun⟩ := Jobs.run_of_ended hend
  exact ⟨u, hc, hrun, hend⟩

/-- The finish of a process follows its last unit at once, and is noticed once. -/
theorem counted (hW : WellFormed W) {i : ℕ} (hi : i < W.length) :
    ∃ before c c' after,
      trace W σ delay T = before ++ [(c, .decrement i), (c', .finish i)] ++ after ∧
      (∀ t, (t, .decrement i) ∉ after) ∧ ∀ t, (t, .finish i) ∉ before ++ after := by
  obtain ⟨u, hu, hrun, hend⟩ := h.exists_last hW hi
  obtain ⟨after, hsplit, hafter⟩ := trace_split W σ delay hu
  have hlast := (Jobs.ended_eq_some.mp hend).2
  -- `i` is not run after its last unit
  have hno : ∀ v, u < v → σ v ≠ some i := fun v hv =>
    h.legal.not_run (hlast.trans (Schedule.served_le_served i hv))
  refine ⟨trace W σ delay u ++ forkMarks W u ++
    ((u, .select i) :: if decide (σ.prev u ≠ σ u) then [(u, .switch i)] else []), u, u + delay,
    after, ?_, fun t ht => ?_, fun t ht => ?_⟩
  · rw [hsplit, trace_succ, hend, hrun]
    simp only [unitMarks, finishMarks, List.append_assoc, List.cons_append, List.nil_append]
  · obtain ⟨v, hv, -, hm | hm | hm⟩ := hafter _ ht
    · obtain ⟨-, j, hj, -⟩ := mem_forkMarks.mp hm
      cases hj
    · obtain ⟨-, j, hj, hm⟩ := mem_unitMarks.mp hm
      simp only [reduceCtorEq, Mark.decrement.injEq, false_or, and_false] at hm
      rw [← hm] at hj
      exact hno v hv hj
    · obtain ⟨-, j, -, hj⟩ := mem_finishMarks.mp hm
      cases hj
  · rcases List.mem_append.mp ht with ht | ht
    · rcases List.mem_append.mp ht with ht | ht
      · rcases List.mem_append.mp ht with ht | ht
        · -- an earlier finish would leave nothing for the unit `u`
          obtain ⟨v, hv, -, hv'⟩ := finish_mem_trace.mp ht
          have hdone := (Jobs.ended_eq_some.mp hv').2
          exact h.legal.not_run (hdone.trans (Schedule.served_le_served i hv)) hrun
        · obtain ⟨-, j, hj, -⟩ := mem_forkMarks.mp ht
          cases hj
      · split at ht <;> simp at ht
    · obtain ⟨v, hv, -, hm | hm | hm⟩ := hafter _ ht
      · obtain ⟨-, j, hj, -⟩ := mem_forkMarks.mp hm
        cases hj
      · obtain ⟨-, j, -, hm⟩ := mem_unitMarks.mp hm
        simp at hm
      · obtain ⟨-, j, hj, hm⟩ := mem_finishMarks.mp hm
        cases hm
        exact hno v hv (Jobs.ended_eq_some.mp hj).1

/-- The last mark of a complete run is a finish. -/
theorem last_mark (hW : WellFormed W) :
    ∃ before c i, trace W σ delay T = before ++ [(c, .finish i)] := by
  have hne := hW.prev_ne_none h.unfinished h.finished
  cases T with
  | zero => exact absurd rfl hne
  | succ t =>
      obtain ⟨i, hi⟩ := Option.ne_none_iff_exists'.mp hne
      have hend : (jobsOf W).ended σ (t + 1) = some i :=
        Jobs.ended_eq_some.mpr ⟨hi, h.finished i (h.legal t i hi).mem⟩
      refine ⟨trace W σ delay t ++ (forkMarks W t ++ unitMarks t (σ t) (σ.prev t ≠ σ t)),
        t + delay, i, ?_⟩
      rw [trace_succ, hend, ← List.append_assoc]
      rfl

theorem released {t i : ℕ} (ht : t ∈ stampsOf (trace W σ delay T) (.decrement i)) :
    (jobsOf W).Eligible σ t i :=
  h.legal t i (decrement_mem_trace.mp (mem_stampsOf.mp ht)).2

/-- The decrements so far, by their marks. -/
theorem stamps_decrement (k i : ℕ) :
    ((run k).state.log.stamps (.decrement i)).length = σ.served k i := by
  rcases Nat.lt_or_ge T k with hlt | hle
  · obtain ⟨s, hs, hclose⟩ := h.done k hlt
    rw [hs, Outcome.state_done, stamps_eq, hclose.marks, stampsOf_decrement_trace, length_units,
      h.toCompletes.served_eq hlt.le]
  · obtain ⟨s, hs, hshow⟩ := h.next k hle
    have hnone : stampsOf (finishMarks k (due W σ delay k)) (.decrement i) = [] :=
      stampsOf_eq_nil fun c hc => by
        obtain ⟨-, j, -, hj⟩ := mem_finishMarks.mp hc
        cases hj
    have htrace := congrArg (fun l => stampsOf l (.decrement i)) hshow.marks
    simp only [stampsOf_append, hnone, List.append_nil] at htrace
    rw [hs, Outcome.state_next, stamps_eq, htrace, stampsOf_decrement_trace, length_units]

/-- The finish counter, by its marks. -/
theorem finished_eq (hW : WellFormed W) (k : ℕ) :
    (run k).state.finished = (run k).state.log.marks.countP fun e => e.2.isFinish := by
  rcases Nat.lt_or_ge T k with hlt | hle
  · obtain ⟨s, hs, hclose⟩ := h.done k hlt
    rw [hs, Outcome.state_done, hclose.marks, countP_trace hW h.legal, hclose.finished,
      Jobs.finished_iff_completed.mp h.finished]
    exact (Finset.card_range _).symm
  · obtain ⟨s, hs, hshow⟩ := h.next k hle
    have hcount := congrArg (fun l => l.countP fun e => e.2.isFinish) hshow.marks
    simp only [List.countP_append, countP_finishMarks, countP_trace hW h.legal] at hcount
    rw [hs, Outcome.state_next]
    have := hshow.finished
    omega

/-- When it is left every process has got its units. -/
theorem exists_done (hW : WellFormed W) : ∃ s, run (T + 1) = .done s ∧
    ∀ i < W.length, ((s.log.stamps (.decrement i)).length : Int) = (entry W i).exec := by
  obtain ⟨s, hs, -⟩ := h.done (T + 1) (Nat.lt_succ_self T)
  refine ⟨s, hs, fun i hi => ?_⟩
  have hunits := h.stamps_decrement (T + 1) i
  rw [hs, Outcome.state_done, h.toCompletes.served_eq T.le_succ] at hunits
  rw [hunits, h.served_eq_length hi, hW.length_eq hi]

/-- The clock is at most the makespan. -/
theorem clock_le (hW : WellFormed W) (k : ℕ) : ((run k).state.clock : Int) ≤ intMax := by
  have hend := makespan_le hW hW.bounded
  rw [← h.toCompletes.eq_makespan hW] at hend
  rcases Nat.lt_or_ge T k with hlt | hle
  · obtain ⟨s, hs, hclose⟩ := h.done k hlt
    rw [hs, Outcome.state_done, hclose.clock]
    exact hend
  · obtain ⟨s, hs, hshow⟩ := h.next k hle
    rw [hs, Outcome.state_next, hshow.clock]
    omega

/-- A described run has integrity, if its forks have. -/
theorem integrity (hW : WellFormed W) {s : Snapshot} (hs : run (T + 1) = .done s)
    (hcalls : s.log.forkCalls.Perm ((List.range W.length).map fun i =>
      ((entry W i).ready.toNat, (entry s.proc i).pid)))
    (hpids : ∀ i < W.length, ∀ j < W.length,
      (entry s.proc i).pid = (entry s.proc j).pid → i = j) : Integrity run W T s := by
  have hclose := h.closes hs
  refine ⟨⟨fun k hk => ?_, hs⟩, fun i hi => ?_, hcalls, hpids, fun i hi => ⟨?_, ?_⟩,
    fun k i hi => ?_, fun i hi t ht => ?_, fun t i j hti htj => ?_, fun i hi => ?_,
    h.finished_eq hW, fun k i hi => ?_, h.clock_le hW, fun k s' hs' hnext => ?_,
    hclose.finished, ?_⟩
  · obtain ⟨s', hs', -⟩ := h.next k hk
    exact ⟨s', hs'⟩
  · refine ⟨(jobsOf W).release i, hW.release_eq hi, ?_⟩
    have hlt : (jobsOf W).release i < T := by
      obtain ⟨u, hu, hrun, -⟩ := h.exists_last hW hi
      exact lt_of_le_of_lt (h.legal u i hrun).released hu
    rw [stamps_eq, hclose.marks, stampsOf_fork_trace hi]
    simp only [eq_comm (a := (jobsOf W).release i)]
    rw [List.filter_eq, List.count_eq_one_of_mem List.nodup_range (List.mem_range.mpr hlt)]
    rfl
  · obtain ⟨s', hs', hunits⟩ := h.exists_done hW
    rw [hs, Outcome.done.injEq] at hs'
    rw [hs']
    exact hunits i hi
  · rw [stamps_eq, hclose.marks, stampsOf_decrement_trace]
    exact List.pairwise_lt_range.filter _
  · rw [(h.tracks k).exec_eq i hi, h.stamps_decrement]
  · rw [stamps_eq, hclose.marks] at ht
    have := (h.released ht).released
    rw [← hW.release_eq hi]
    omega
  · rw [stamps_eq, hclose.marks] at hti htj
    have hi := (decrement_mem_trace.mp (mem_stampsOf.mp hti)).2
    have hj := (decrement_mem_trace.mp (mem_stampsOf.mp htj)).2
    exact ⟨mem_jobsOf.mp (h.legal t i hi).mem, Option.some.inj (hi.symm.trans hj)⟩
  · rw [hclose.marks]
    exact h.counted hW hi
  · rw [(h.tracks k).exec_eq_left hW hi (h.legal.served_le k)]
    exact Int.natCast_nonneg _
  · obtain ⟨s'', hs''⟩ := hnext
    have hle := h.le_of_next hs''
    have hcompleted : (jobsOf W).completed σ k < (jobsOf W).jobs.card := by
      apply lt_of_le_of_ne (Jobs.completed_le _ _ _)
      intro he
      exact h.unfinished k (by omega) (Jobs.finished_iff_completed.mpr he)
    have hcard : (jobsOf W).jobs.card = W.length := Finset.card_range _
    have := (h.shows hs').finished
    omega
  · rw [hclose.marks]
    exact h.last_mark hW

end Describes

/-- On every well-formed workload FIFO, SJF, RR and PSJF run with integrity. -/
theorem Policy.run_integrity (P : Policy) (os : Os) (q : Qsort) (W : List Process)
    (hos : os.Healthy) (hW : WellFormed W) (hz : P.Fresh W) :
    (P.table q W).Perm W ∧ ∃ T s, Integrity (P.run os q W) (P.table q W) T s := by
  have hR := P.runs (q := q) hos hW hz
  have hT := P.table_wellFormed (q := q) hW
  have hp := writesPids (P := P) hos
  obtain ⟨acts, s, hpath, -, hrun⟩ := exists_path_end (q := q) hos hW hz
  have hperm := forkedOf_perm (q := q) hos hW hz hrun
  rw [← P.log_snapshot os] at hperm
  have hnodup := hperm.nodup_iff.mpr List.nodup_range
  refine ⟨P.table_perm q W, makespan W, P.snapshot s,
    (P.describes (q := q) hos hW hz).integrity hT hrun ?_ fun i hi j hj hij => ?_⟩
  · have hcalls := hR.forkCalls_eq hos hp (stampsForks hos) hpath hnodup
    rw [← P.log_snapshot os, ← P.proc_snapshot os, P.length_table]
    exact (List.Perm.of_eq hcalls).trans (hperm.map _)
  · rw [← P.proc_snapshot os] at hij
    rw [P.length_table] at hi hj
    exact hR.pid_inj hos hp hpath hnodup i (hperm.mem_iff.mpr (List.mem_range.mpr hi)) j
      (hperm.mem_iff.mpr (List.mem_range.mpr hj)) hij

theorem Policy.run_integrity_readme :
    (psjf.table Qsort.insertion readmeWorkload).Perm readmeWorkload ∧
      ∃ T s, Integrity (psjf.run Os.counting Qsort.insertion readmeWorkload)
        (psjf.table Qsort.insertion readmeWorkload) T s :=
  Policy.run_integrity psjf Os.counting Qsort.insertion readmeWorkload Os.counting_healthy
    (by decide) fun _ => by decide

end ProcSched
