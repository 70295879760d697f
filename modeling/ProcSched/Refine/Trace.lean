/-
  ProcSched.Refine.Trace

  What the log of a run looks like when the scheduler follows a schedule `σ` on
  the table `W`: in iteration `t` the marks of the forks, of the unit given to
  `σ t`, and of its finish if that was its last unit.  The finish of the job of
  unit `t` is noticed `delay` iterations later: in the same iteration by PSJF,
  at the top of the next one by the others.
-/

import ProcSched.Refine.Scan
import ProcSched.Spec.Workload

namespace ProcSched

/-- The job of the unit before `t`, if that was its last one. -/
def Jobs.ended (J : Jobs ℕ) (σ : Schedule ℕ) (t : ℕ) : Option ℕ :=
  (σ.prev t).filter fun i => J.length i ≤ σ.served t i

/-- Marks of the fork scan at clock `t`. -/
def forkMarks (W : List Process) (t : ℕ) : List (ℕ × Mark) :=
  ((List.range W.length).filter fun i => (jobsOf W).release i = t).map fun i => (t, .fork i)

/-- Marks of one unit of time given to `o`, with a context switch or not. -/
def unitMarks (t : ℕ) (o : Option ℕ) (switch : Bool) : List (ℕ × Mark) :=
  match o with
  | none => []
  | some i =>
    (t, .select i) :: (if switch then [(t, .switch i)] else []) ++ [(t, .decrement i)]

/-- Marks of a finish noticed at clock `t`. -/
def finishMarks (t : ℕ) (o : Option ℕ) : List (ℕ × Mark) :=
  match o with
  | none => []
  | some i => [(t, .finish i)]

/-- The marks of the units before `t`, with the finishes they lead to. -/
def trace (W : List Process) (σ : Schedule ℕ) (delay : ℕ) : ℕ → List (ℕ × Mark)
  | 0 => []
  | t + 1 => trace W σ delay t ++
      (forkMarks W t ++ unitMarks t (σ t) (σ.prev t ≠ σ t) ++
        finishMarks (t + delay) ((jobsOf W).ended σ (t + 1)))

/-- `proc` is the table `W` after the units of `σ` before `t`. -/
structure Tracks (W : List Process) (σ : Schedule ℕ) (t : ℕ) (proc : List Process) : Prop where
  length_eq : proc.length = W.length
  name_eq : ∀ i < W.length, (entry proc i).name = (entry W i).name
  ready_eq : ∀ i < W.length, (entry proc i).ready = (entry W i).ready
  exec_eq : ∀ i < W.length, (entry proc i).exec = (entry W i).exec - σ.served t i

section Ended

variable {J : Jobs ℕ} {σ : Schedule ℕ} {t : ℕ} {i : ℕ}

theorem Jobs.ended_eq_some :
    J.ended σ t = some i ↔ σ.prev t = some i ∧ J.length i ≤ σ.served t i := by
  simp [ended, Option.filter_eq_some_iff]

/-- A job ends with a unit of its own. -/
theorem Jobs.run_of_ended (h : J.ended σ t = some i) : ∃ u, t = u + 1 ∧ σ u = some i := by
  cases t with
  | zero => simp [ended] at h
  | succ u => exact ⟨u, rfl, (ended_eq_some.mp h).1⟩

/-- A job that has had all its units ended at some time. -/
theorem Jobs.exists_ended (hpos : 0 < J.length i) (hle : J.length i ≤ σ.served t i) :
    ∃ c ≤ t, J.ended σ c = some i := by
  induction t with
  | zero =>
      rw [Schedule.served_zero] at hle
      omega
  | succ t ih =>
      by_cases hbefore : J.length i ≤ σ.served t i
      · obtain ⟨c, hc, hend⟩ := ih hbefore
        exact ⟨c, by omega, hend⟩
      · refine ⟨t + 1, Nat.le_refl _, ended_eq_some.mpr ⟨?_, hle⟩⟩
        by_contra hne
        rw [Schedule.served_succ_other (t := t) hne] at hle
        exact hbefore hle

/-- The job of the previous unit is carried over or has ended. -/
theorem Jobs.ended_eq_none :
    J.ended σ t = none ↔ σ.prev t = J.current σ t := by
  cases hp : σ.prev t with
  | none => simp [ended, current, hp]
  | some r =>
      simp only [ended, current, hp, Option.filter_some]
      by_cases hlt : σ.served t r < J.length r
      · simp [hlt]
      · simp [hlt, Nat.le_of_not_lt hlt]

theorem Jobs.ended_of_current_none (h : J.current σ t = none) : J.ended σ t = σ.prev t := by
  cases hp : σ.prev t with
  | none => simp [ended, hp]
  | some r => exact ended_eq_some.mpr ⟨hp, current_eq_none.mp h r hp⟩

theorem Jobs.ended_of_current_some (h : J.current σ t = some i) : J.ended σ t = none :=
  ended_eq_none.mpr ((current_eq_some.mp h).1.trans h.symm)

/-- No process is finished at the start. -/
theorem WellFormed.completed_zero {W : List Process} (hW : WellFormed W) {σ : Schedule ℕ} :
    (jobsOf W).completed σ 0 = 0 := by
  rw [Jobs.completed, Finset.card_eq_zero, Finset.filter_eq_empty_iff]
  intro i hi hle
  have := hW.mem_length_pos i hi
  rw [Schedule.served_zero] at hle
  omega

/-- A process ends with a unit exactly when it is not carried over. -/
theorem Jobs.length_ended (J : Jobs ℕ) (σ : Schedule ℕ) (t : ℕ) :
    (J.ended σ (t + 1)).toList.length =
      if σ t ≠ none ∧ J.current σ (t + 1) = none then 1 else 0 := by
  cases hcur : J.current σ (t + 1) with
  | none =>
      rw [ended_of_current_none hcur, Schedule.prev_succ]
      cases σ t <;> simp
  | some i =>
      rw [ended_of_current_some hcur]
      simp

end Ended

/-! ## Tables along a run -/

namespace Tracks

variable {W proc : List Process} {σ : Schedule ℕ} {t : ℕ}

/-- Only `pid` and `waiting` differ. -/
theorem congr (h : Tracks W σ t proc) {proc' : List Process} (hlen : proc'.length = proc.length)
    (hentry : ∀ i < proc.length, (entry proc' i).name = (entry proc i).name ∧
      (entry proc' i).ready = (entry proc i).ready ∧ (entry proc' i).exec = (entry proc i).exec) :
    Tracks W σ t proc' where
  length_eq := hlen.trans h.length_eq
  name_eq i hi := (hentry i (by rw [h.length_eq]; exact hi)).1.trans (h.name_eq i hi)
  ready_eq i hi := (hentry i (by rw [h.length_eq]; exact hi)).2.1.trans (h.ready_eq i hi)
  exec_eq i hi := (hentry i (by rw [h.length_eq]; exact hi)).2.2.trans (h.exec_eq i hi)

/-- At the loop entry nothing has been served. -/
theorem start (σ : Schedule ℕ) (hlen : proc.length = W.length)
    (hentry : ∀ i < W.length, (entry proc i).name = (entry W i).name ∧
      (entry proc i).ready = (entry W i).ready ∧ (entry proc i).exec = (entry W i).exec) :
    Tracks W σ 0 proc where
  length_eq := hlen
  name_eq i hi := (hentry i hi).1
  ready_eq i hi := (hentry i hi).2.1
  exec_eq i hi := by rw [(hentry i hi).2.2, Schedule.served_zero, Nat.cast_zero, Int.sub_zero]

theorem idle (h : Tracks W σ t proc) (hσ : σ t = none) : Tracks W σ (t + 1) proc where
  length_eq := h.length_eq
  name_eq := h.name_eq
  ready_eq := h.ready_eq
  exec_eq i hi := by
    rw [h.exec_eq i hi, Schedule.served_succ_other (by
      rw [hσ]
      exact (Option.some_ne_none i).symm)]

theorem unit (h : Tracks W σ t proc) {r : ℕ} (hσ : σ t = some r) :
    Tracks W σ (t + 1) (proc.modify r fun p => { p with exec := p.exec - 1 }) where
  length_eq := (List.length_modify _ _ _).trans h.length_eq
  name_eq i hi := by
    rw [entry_modify (by rw [h.length_eq]; exact hi), ← h.name_eq i hi]
    split <;> rfl
  ready_eq i hi := by
    rw [entry_modify (by rw [h.length_eq]; exact hi), ← h.ready_eq i hi]
    split <;> rfl
  exec_eq i hi := by
    rw [entry_modify (by rw [h.length_eq]; exact hi)]
    have hexec := h.exec_eq i hi
    by_cases hir : i = r
    · rw [if_pos hir, hir, Schedule.served_succ_self hσ]
      rw [hir] at hexec
      simp only
      omega
    · rw [if_neg hir, hexec, Schedule.served_succ_other (by
        rw [hσ]
        exact fun he => hir (Option.some.inj he).symm)]

/-- The counter of an entry that never gets more than its length. -/
theorem exec_eq_left (h : Tracks W σ t proc) (hW : WellFormed W) {i : ℕ} (hi : i < W.length)
    (hle : σ.served t i ≤ (jobsOf W).length i) :
    (entry proc i).exec = ((jobsOf W).left σ t i : ℕ) := by
  rw [h.exec_eq i hi, ← hW.length_eq hi, Jobs.left]
  omega

theorem exec_ne_zero_iff (h : Tracks W σ t proc) (hW : WellFormed W) {i : ℕ} (hi : i < W.length)
    (hle : σ.served t i ≤ (jobsOf W).length i) :
    (entry proc i).exec ≠ 0 ↔ σ.served t i < (jobsOf W).length i := by
  rw [h.exec_eq_left hW hi hle, Jobs.left]
  omega

theorem ready_iff (h : Tracks W σ t proc) (hW : WellFormed W) {i : ℕ} (hi : i < W.length)
    (c : ℕ) : (entry proc i).ready = (c : Int) ↔ (jobsOf W).release i = c := by
  rw [h.ready_eq i hi, ← hW.release_eq hi]
  exact Nat.cast_inj

end Tracks

/-! ## The fork scan of a table along a run -/

section Scanned

variable {W proc proc' : List Process} {σ : Schedule ℕ} {t now : ℕ}
  {set : Int → Process → Process} {log new : Log} {pids : ℕ → Int}
  (hspec : Scanned now set 0 proc log proc' new pids) (h : Tracks W σ t proc)
  (hW : WellFormed W)
include hspec h hW

/-- The scan changes the entries released at its clock. -/
theorem Scanned.entry_of_release {i : ℕ} (hi : i < W.length) : entry proc' i =
    if (jobsOf W).release i = now then set (pids i) (entry proc i) else entry proc i := by
  rw [hspec.entry_eq i (by rw [h.length_eq]; exact hi)]
  simp only [h.ready_iff hW hi]

/-- An entry released at the clock is forked, with a pid of its own. -/
theorem Scanned.forked {i : ℕ} (hi : i < W.length) (hr : (jobsOf W).release i = now) :
    entry proc' i = set (pids i) (entry proc i) ∧ 0 < pids i ∧ pids i ∈ new.forked ∧
      pids i ∉ log.forked := by
  have hi' : i < proc.length := by rw [h.length_eq]; exact hi
  have hready := (h.ready_iff hW hi now).mpr hr
  refine ⟨?_, hspec.pid_pos i hi' hready, hspec.pid_mem i hi' hready, hspec.pid_fresh i hi' hready⟩
  rw [hspec.entry_of_release h hW hi, if_pos hr]

theorem Scanned.forked_inj {i j : ℕ} (hi : i < W.length) (hj : j < W.length)
    (hri : (jobsOf W).release i = now) (hrj : (jobsOf W).release j = now)
    (heq : pids i = pids j) : i = j :=
  hspec.pid_inj i (by rw [h.length_eq]; exact hi) j (by rw [h.length_eq]; exact hj)
    ((h.ready_iff hW hi now).mpr hri) ((h.ready_iff hW hj now).mpr hrj) heq

/-- Every other entry is left alone. -/
theorem Scanned.untouched {i : ℕ} (hi : i < W.length) (hr : (jobsOf W).release i ≠ now) :
    entry proc' i = entry proc i := by
  rw [hspec.entry_of_release h hW hi, if_neg hr]

/-- A fork leaves what it does not set. -/
theorem Scanned.tracks (hset : ∀ pid p, (set pid p).name = p.name ∧ (set pid p).ready = p.ready ∧
    (set pid p).exec = p.exec) : Tracks W σ t proc' := by
  refine h.congr hspec.length_eq fun i hi => ?_
  rw [hspec.entry_of_release h hW (by rw [← h.length_eq]; exact hi)]
  split
  · exact hset _ _
  · exact ⟨rfl, rfl, rfl⟩

theorem Scanned.marks_eq_forkMarks : new.marks = forkMarks W now := by
  rw [hspec.marks_eq, forkMarks, h.length_eq]
  simp only [Nat.zero_add]
  congr 1
  apply List.filter_congr
  intro i hi
  simp only [h.ready_iff hW (List.mem_range.mp hi)]

end Scanned

/-! ## Marks of a trace -/

section Marks

variable {W : List Process} {σ : Schedule ℕ} {delay t c : ℕ} {i : ℕ}

theorem trace_succ (W : List Process) (σ : Schedule ℕ) (delay t : ℕ) :
    trace W σ delay (t + 1) = trace W σ delay t ++
      (forkMarks W t ++ unitMarks t (σ t) (σ.prev t ≠ σ t) ++
        finishMarks (t + delay) ((jobsOf W).ended σ (t + 1))) := rfl

theorem mem_forkMarks {m : Mark} :
    (c, m) ∈ forkMarks W t ↔
      c = t ∧ ∃ i, m = .fork i ∧ i < W.length ∧ (jobsOf W).release i = t := by
  simp only [forkMarks, List.mem_map, List.mem_filter, List.mem_range, decide_eq_true_eq,
    Prod.mk.injEq]
  constructor
  · rintro ⟨i, ⟨hi, hr⟩, rfl, rfl⟩
    exact ⟨rfl, i, rfl, hi, hr⟩
  · rintro ⟨rfl, i, rfl, hi, hr⟩
    exact ⟨i, ⟨hi, hr⟩, rfl, rfl⟩

theorem mem_unitMarks {o : Option ℕ} {switch : Bool} {m : Mark} :
    (c, m) ∈ unitMarks t o switch ↔ c = t ∧ ∃ i, o = some i ∧
      (m = .select i ∨ switch = true ∧ m = .switch i ∨ m = .decrement i) := by
  cases o with
  | none => simp [unitMarks]
  | some i => cases switch <;> simp [unitMarks] <;> tauto

theorem mem_finishMarks {o : Option ℕ} {m : Mark} :
    (c, m) ∈ finishMarks t o ↔ c = t ∧ ∃ i, o = some i ∧ m = .finish i := by
  cases o with
  | none => simp [finishMarks]
  | some i => simp [finishMarks]

/-- Every mark of a trace comes from one unit of time. -/
theorem mem_trace {m : Mark} :
    (c, m) ∈ trace W σ delay t ↔ ∃ u < t, (c, m) ∈ forkMarks W u ∨
      (c, m) ∈ unitMarks u (σ u) (σ.prev u ≠ σ u) ∨
      (c, m) ∈ finishMarks (u + delay) ((jobsOf W).ended σ (u + 1)) := by
  induction t with
  | zero => simp [trace]
  | succ t ih =>
      rw [trace_succ, List.mem_append, ih, List.mem_append, List.mem_append]
      constructor
      · rintro (⟨u, hu, h⟩ | h)
        · exact ⟨u, by omega, h⟩
        · exact ⟨t, Nat.lt_succ_self t, or_assoc.mp h⟩
      · rintro ⟨u, hu, h⟩
        rcases Nat.lt_succ_iff_lt_or_eq.mp hu with hu | rfl
        · exact Or.inl ⟨u, hu, h⟩
        · exact Or.inr (or_assoc.mpr h)

theorem fork_mem_trace :
    (c, Mark.fork i) ∈ trace W σ delay t ↔
      c < t ∧ i < W.length ∧ (jobsOf W).release i = c := by
  simp only [mem_trace, mem_forkMarks, mem_unitMarks, mem_finishMarks, Mark.fork.injEq,
    reduceCtorEq, and_false, or_false, exists_false, exists_eq_left']
  constructor
  · rintro ⟨u, hu, rfl, hi, hr⟩
    exact ⟨hu, hi, hr⟩
  · rintro ⟨hc, hi, hr⟩
    exact ⟨c, hc, rfl, hi, hr⟩

/-- The marks of a unit stand at the clock of the unit. -/
theorem exists_unit {p : ℕ → ℕ → Prop} :
    (∃ u < t, c = u ∧ ∃ j, p u j ∧ i = j) ↔ c < t ∧ p c i := by
  constructor
  · rintro ⟨u, hu, rfl, j, hj, rfl⟩
    exact ⟨hu, hj⟩
  · rintro ⟨hc, hi⟩
    exact ⟨c, hc, rfl, i, hi, rfl⟩

theorem decrement_mem_trace :
    (c, Mark.decrement i) ∈ trace W σ delay t ↔ c < t ∧ σ c = some i := by
  simp only [mem_trace, mem_forkMarks, mem_unitMarks, mem_finishMarks, Mark.decrement.injEq,
    reduceCtorEq, false_and, and_false, false_or, or_false, exists_false]
  exact exists_unit

theorem select_mem_trace :
    (c, Mark.select i) ∈ trace W σ delay t ↔ c < t ∧ σ c = some i := by
  simp only [mem_trace, mem_forkMarks, mem_unitMarks, mem_finishMarks, Mark.select.injEq,
    reduceCtorEq, false_and, and_false, false_or, or_false, exists_false]
  exact exists_unit

theorem switch_mem_trace :
    (c, Mark.switch i) ∈ trace W σ delay t ↔ c < t ∧ σ.Starts c i := by
  simp only [mem_trace, mem_forkMarks, mem_unitMarks, mem_finishMarks, Mark.switch.injEq,
    reduceCtorEq, false_and, and_false, false_or, or_false, exists_false, decide_eq_true_eq]
  constructor
  · rintro ⟨u, hu, rfl, j, hj, hne, rfl⟩
    exact ⟨hu, hj, by rw [← hj]; exact hne⟩
  · rintro ⟨hc, hi, hne⟩
    exact ⟨c, hc, rfl, i, hi, by rw [hi]; exact hne, rfl⟩

theorem finish_mem_trace :
    (c, Mark.finish i) ∈ trace W σ delay t ↔
      ∃ u < t, c = u + delay ∧ (jobsOf W).ended σ (u + 1) = some i := by
  simp only [mem_trace, mem_forkMarks, mem_unitMarks, mem_finishMarks, Mark.finish.injEq,
    reduceCtorEq, false_and, and_false, false_or, or_false, exists_false]
  constructor
  · rintro ⟨u, hu, rfl, j, hj, rfl⟩
    exact ⟨u, hu, rfl, hj⟩
  · rintro ⟨u, hu, rfl, hi⟩
    exact ⟨u, hu, rfl, i, hi, rfl⟩

end Marks

/-! ## Schedules along a run -/

/-- The work is finished for the first time only right after a unit was spent. -/
theorem WellFormed.prev_ne_none {W : List Process} (hW : WellFormed W) {σ : Schedule ℕ} {k : ℕ}
    (hunf : ∀ t < k, ¬ (jobsOf W).Finished σ t) (hfin : (jobsOf W).Finished σ k) :
    σ.prev k ≠ none := by
  cases k with
  | zero =>
      have h₁ := hfin 0 (mem_jobsOf.mpr hW.length_pos)
      have h₂ := hW.jobs_length_pos hW.length_pos
      rw [Schedule.served_zero] at h₁
      omega
  | succ t =>
      intro hnone
      apply hunf t (Nat.lt_succ_self t)
      intro i hi
      have := hfin i hi
      rwa [Schedule.served_succ_other (by
        rw [show σ t = none from hnone]
        exact (Option.some_ne_none i).symm)] at this

/-- A law for the job chosen at a time, given the schedule before it. -/
abbrev ChoiceLaw := Schedule ℕ → ℕ → Option ℕ → Prop

/-- Before `k` the schedule runs eligible jobs whenever there are some, as the
    law says, and there is work to do. -/
structure Before (W : List Process) (law : ChoiceLaw) (σ : Schedule ℕ) (k : ℕ) : Prop where
  legal : ∀ t < k, ∀ i, σ t = some i → (jobsOf W).Eligible σ t i
  busy : ∀ t < k, ∀ i, (jobsOf W).Eligible σ t i → σ t ≠ none
  law : ∀ t < k, law σ t (σ t)
  unfinished : ∀ t < k, ¬ (jobsOf W).Finished σ t

namespace Before

variable {W : List Process} {law : ChoiceLaw} {σ : Schedule ℕ} {k : ℕ}

theorem zero (W : List Process) (law : ChoiceLaw) (σ : Schedule ℕ) : Before W law σ 0 where
  legal t ht := absurd ht (Nat.not_lt_zero t)
  busy t ht := absurd ht (Nat.not_lt_zero t)
  law t ht := absurd ht (Nat.not_lt_zero t)
  unfinished t ht := absurd ht (Nat.not_lt_zero t)

theorem succ (h : Before W law σ k) (hunf : ¬ (jobsOf W).Finished σ k)
    (hlegal : ∀ i, σ k = some i → (jobsOf W).Eligible σ k i)
    (hbusy : σ k = none → ∀ i, ¬ (jobsOf W).Eligible σ k i) (hlaw : law σ k (σ k)) :
    Before W law σ (k + 1) where
  legal t ht := by
    rcases Nat.lt_succ_iff_lt_or_eq.mp ht with ht | rfl
    · exact h.legal t ht
    · exact hlegal
  busy t ht := by
    rcases Nat.lt_succ_iff_lt_or_eq.mp ht with ht | rfl
    · exact h.busy t ht
    · exact fun i hi hnone => hbusy hnone i hi
  law t ht := by
    rcases Nat.lt_succ_iff_lt_or_eq.mp ht with ht | rfl
    · exact h.law t ht
    · exact hlaw
  unfinished t ht := by
    rcases Nat.lt_succ_iff_lt_or_eq.mp ht with ht | rfl
    · exact h.unfinished t ht
    · exact hunf

theorem served_le (h : Before W law σ k) (i : ℕ) :
    σ.served k i ≤ (jobsOf W).length i := by
  have hall : ∀ t ≤ k, σ.served t i ≤ (jobsOf W).length i := by
    intro t
    induction t with
    | zero => exact fun _ => Nat.zero_le _
    | succ t ih =>
        intro ht
        by_cases hrun : σ t = some i
        · rw [Schedule.served_succ_self hrun]
          exact (h.legal t ht i hrun).unfinished
        · rw [Schedule.served_succ_other hrun]
          exact ih (by omega)
  exact hall k (Nat.le_refl k)

theorem eligible_current (h : Before W law σ k) {r : ℕ}
    (hr : (jobsOf W).current σ k = some r) : (jobsOf W).Eligible σ k r := by
  obtain ⟨hprev, hlt⟩ := Jobs.current_eq_some.mp hr
  cases k with
  | zero => simp at hprev
  | succ t =>
      have hel := h.legal t (Nat.lt_succ_self t) r hprev
      exact ⟨hel.mem, hel.released.trans (Nat.le_succ t), hlt⟩

theorem served_eq_zero (h : Before W law σ k) {i : ℕ} (hi : k ≤ (jobsOf W).release i) :
    σ.served k i = 0 := by
  rw [Schedule.served_eq_of_not_run (Nat.zero_le k), Schedule.served_zero]
  intro u _ hu hrun
  have := (h.legal u hu i hrun).released
  omega

theorem prev_released (h : Before W law σ k) {i : ℕ} (hi : σ.prev k = some i) :
    i < W.length ∧ (jobsOf W).release i < k := by
  cases k with
  | zero => simp at hi
  | succ t =>
      have hel := h.legal t (Nat.lt_succ_self t) i hi
      exact ⟨mem_jobsOf.mp hel.mem, Nat.lt_succ_of_le hel.released⟩

end Before

/-! ## Descriptions of runs -/

/-- The finish that has happened but is not noticed yet. -/
def due (W : List Process) (σ : Schedule ℕ) (delay k : ℕ) : Option ℕ :=
  if delay = 0 then none else (jobsOf W).ended σ k

/-- A snapshot at the top of iteration `k` of a run that follows `σ`. -/
structure Shows (W : List Process) (σ : Schedule ℕ) (delay k : ℕ) (s : Snapshot) : Prop where
  clock : s.clock = k
  tracks : Tracks W σ k s.proc
  finished : s.finished + (due W σ delay k).toList.length = (jobsOf W).completed σ k
  marks : s.log.marks ++ finishMarks k (due W σ delay k) = trace W σ delay k

/-- The snapshot with which a run that follows `σ` is left after `T` units. -/
structure Closes (W : List Process) (σ : Schedule ℕ) (delay T : ℕ) (s : Snapshot) : Prop where
  clock : s.clock = T
  tracks : Tracks W σ T s.proc
  finished : s.finished = W.length
  marks : s.log.marks = trace W σ delay T

end ProcSched
