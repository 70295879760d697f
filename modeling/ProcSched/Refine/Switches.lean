/-
  ProcSched.Refine.Switches

  The context switches and the finishes of a log, as lists of clocks with table
  indices, and what they are when the scheduler follows a schedule: the times at
  which the schedule puts a job on the processor, and the times at which a job
  has ended.
-/

import ProcSched.Lib.Preemption
import ProcSched.Refine.Calls

namespace ProcSched

/-- The switches among the marks. -/
def switchesOf (l : List (ℕ × Mark)) : List (ℕ × ℕ) :=
  l.filterMap fun e =>
    match e.2 with
    | .switch i => some (e.1, i)
    | _ => none

/-- The finishes among the marks. -/
def finishesOf (l : List (ℕ × Mark)) : List (ℕ × ℕ) :=
  l.filterMap fun e =>
    match e.2 with
    | .finish i => some (e.1, i)
    | _ => none

/-- The entries of the context-switch block, with the process switched to. -/
def Log.switches (log : Log) : List (ℕ × ℕ) := switchesOf log.marks

/-- The increments of the finish counter, with the process counted. -/
def Log.finishes (log : Log) : List (ℕ × ℕ) := finishesOf log.marks

/-- The times before `t` at which `σ` puts a job on the processor. -/
def starts (σ : Schedule ℕ) : ℕ → List (ℕ × ℕ)
  | 0 => []
  | t + 1 => starts σ t ++ (if σ.prev t ≠ σ t then (σ t).toList.map fun i => (t, i) else [])

theorem starts_succ (σ : Schedule ℕ) (t : ℕ) : starts σ (t + 1) =
    starts σ t ++ (if σ.prev t ≠ σ t then (σ t).toList.map fun i => (t, i) else []) := rfl

/-- Every change of job is a start. -/
theorem length_starts (σ : Schedule ℕ) (t : ℕ) : (starts σ t).length = σ.changes t := by
  induction t with
  | zero => rfl
  | succ t ih =>
      rw [starts_succ, List.length_append, ih, Schedule.changes]
      cases hrun : σ t with
      | none => simp
      | some i =>
          by_cases hprev : σ.prev t = some i
          · simp [hprev]
          · have hne : some i ≠ σ.prev t := fun he => hprev he.symm
            simp [hprev, hne]

section Trace

variable {W : List Process} {σ : Schedule ℕ} {delay t : ℕ}

theorem switchesOf_append (l l' : List (ℕ × Mark)) :
    switchesOf (l ++ l') = switchesOf l ++ switchesOf l' := List.filterMap_append

theorem finishesOf_append (l l' : List (ℕ × Mark)) :
    finishesOf (l ++ l') = finishesOf l ++ finishesOf l' := List.filterMap_append

theorem switchesOf_eq_nil {l : List (ℕ × Mark)} (h : ∀ c i, (c, Mark.switch i) ∉ l) :
    switchesOf l = [] := by
  rw [switchesOf, List.filterMap_eq_nil_iff]
  rintro ⟨c, m⟩ hm
  cases m with
  | switch i => exact absurd hm (h c i)
  | _ => rfl

theorem finishesOf_eq_nil {l : List (ℕ × Mark)} (h : ∀ c i, (c, Mark.finish i) ∉ l) :
    finishesOf l = [] := by
  rw [finishesOf, List.filterMap_eq_nil_iff]
  rintro ⟨c, m⟩ hm
  cases m with
  | finish i => exact absurd hm (h c i)
  | _ => rfl

theorem switchesOf_trace (W : List Process) (σ : Schedule ℕ) (delay t : ℕ) :
    switchesOf (trace W σ delay t) = starts σ t := by
  induction t with
  | zero => rfl
  | succ t ih =>
      have hfork : switchesOf (forkMarks W t) = [] := switchesOf_eq_nil fun c i hm => by
        obtain ⟨-, j, hj, -⟩ := mem_forkMarks.mp hm
        cases hj
      have hfinish : switchesOf (finishMarks (t + delay) ((jobsOf W).ended σ (t + 1))) = [] :=
        switchesOf_eq_nil fun c i hm => by
          obtain ⟨-, j, -, hj⟩ := mem_finishMarks.mp hm
          cases hj
      -- only the unit can switch, and it does when its job was not the previous one
      have hunit : switchesOf (unitMarks t (σ t) (σ.prev t ≠ σ t)) =
          if σ.prev t ≠ σ t then (σ t).toList.map fun i => (t, i) else [] := by
        cases hrun : σ t with
        | none => simp [switchesOf, unitMarks]
        | some i => by_cases hprev : σ.prev t = some i <;> simp [switchesOf, unitMarks, hprev]
      rw [trace_succ, switchesOf_append, switchesOf_append, switchesOf_append, ih, hfork, hfinish,
        hunit, starts_succ, List.nil_append, List.append_nil]

theorem finishesOf_trace (W : List Process) (σ : Schedule ℕ) (t : ℕ) :
    finishesOf (trace W σ 1 t) = endings W σ (t + 1) := by
  induction t with
  | zero => rfl
  | succ t ih =>
      -- a finish is noticed in the iteration after the unit
      have hnone : finishesOf (forkMarks W t ++ unitMarks t (σ t) (σ.prev t ≠ σ t)) = [] :=
        finishesOf_eq_nil fun c i hm => by
          rcases List.mem_append.mp hm with hm | hm
          · obtain ⟨-, j, hj, -⟩ := mem_forkMarks.mp hm
            cases hj
          · obtain ⟨-, j, -, hj⟩ := mem_unitMarks.mp hm
            simp at hj
      have hfinish : finishesOf (finishMarks (t + 1) ((jobsOf W).ended σ (t + 1))) =
          ((jobsOf W).ended σ (t + 1)).toList.map fun i => (t + 1, i) := by
        cases (jobsOf W).ended σ (t + 1) <;> simp [finishesOf, finishMarks]
      rw [trace_succ, finishesOf_append, finishesOf_append, ih, hnone, hfinish, List.nil_append,
        ← endings_succ]

end Trace

namespace Describes

variable {run : ℕ → Outcome Snapshot} {W : List Process} {law : ChoiceLaw} {σ : Schedule ℕ}
  {delay T k : ℕ} {s : Snapshot} (h : Describes run W law σ delay T)
include h

/-- The context switches of a complete run. -/
theorem switches_eq (hs : run k = .done s) : s.log.switches = starts σ T := by
  rw [← switchesOf_trace W σ delay T, ← (h.closes hs).marks]
  rfl

/-- Its finishes, counted in the iteration after the last unit. -/
theorem finishes_eq (hdelay : delay = 1) (hs : run k = .done s) :
    s.log.finishes = endings W σ (T + 1) := by
  subst hdelay
  rw [← finishesOf_trace, ← (h.closes hs).marks]
  rfl

end Describes

end ProcSched
