/-
  ProcSched.Lib.Response

  Response times.  The time from the release of a job to its completion is made
  of the units it runs and of the units in which it is kept waiting; summed over
  the jobs, the latter are the pairs of a time and a job delayed at that time
  (`CompletesAt.sum_delayed`).
-/

import Mathlib.Order.Interval.Finset.Nat
import ProcSched.Lib.Srpt

namespace ProcSched

open Finset

variable {ι : Type} [DecidableEq ι] {J : Jobs ι} {σ : Schedule ι} {C : ι → ℕ} {T t : ℕ} {i : ι}

/-- The units of a job, counted. -/
theorem Schedule.served_eq_card (σ : Schedule ι) (T : ℕ) (i : ι) :
    σ.served T i = ((range T).filter fun t => σ t = some i).card := by
  induction T with
  | zero => rfl
  | succ T ih =>
      rw [served_succ, ih, range_add_one, filter_insert]
      split
      · rw [card_insert_of_notMem (by simp)]
      · rw [Nat.add_zero]

namespace Jobs

/-- The eligible jobs that do not have the processor at time `t`. -/
def delayed (J : Jobs ι) (σ : Schedule ι) (t : ℕ) : Finset ι :=
  J.jobs.filter fun i => J.Eligible σ t i ∧ σ t ≠ some i

/-- A job is eligible between its release and its completion. -/
theorem CompletesAt.eligible_iff (hC : J.CompletesAt σ C) (hi : i ∈ J.jobs) :
    J.Eligible σ t i ↔ J.release i ≤ t ∧ t < C i := by
  have hdone := hC i hi t
  constructor
  · intro hel
    have hunf := hel.unfinished
    exact ⟨hel.released, by omega⟩
  · rintro ⟨hrel, hlt⟩
    exact ⟨hi, hrel, by omega⟩

section

variable (hL : J.Legal σ) (hC : J.CompletesAt σ C)
include hL hC

/-- No job completes before it is released. -/
theorem CompletesAt.release_le (hpos : ∀ i ∈ J.jobs, 0 < J.length i) (hi : i ∈ J.jobs) :
    J.release i ≤ C i := by
  by_contra hlt
  have hzero := hL.served_eq_zero (Nat.le_of_not_le hlt)
  have hdone := (hC i hi (C i)).mp (Nat.le_refl _)
  have hone := hpos i hi
  omega

/-- The response time of a job: its units, and those in which it is delayed. -/
theorem CompletesAt.response_eq (hi : i ∈ J.jobs) (hT : C i ≤ T) :
    C i - J.release i = J.length i +
      ((range T).filter fun t => J.Eligible σ t i ∧ σ t ≠ some i).card := by
  have hunits : ((range T).filter fun t => J.Eligible σ t i ∧ σ t = some i).card =
      J.length i := by
    have hserved : ((range T).filter fun t => J.Eligible σ t i ∧ σ t = some i) =
        (range T).filter fun t => σ t = some i :=
      filter_congr fun t _ => and_iff_right_of_imp fun hrun => hL t i hrun
    rw [hserved, ← Schedule.served_eq_card]
    exact Nat.le_antisymm (hL.served_le T) ((hC i hi T).mp hT)
  -- the units in which `i` is eligible are those between its release and its completion
  have hall : ((range T).filter fun t => J.Eligible σ t i) = Ico (J.release i) (C i) := by
    ext t
    rw [mem_filter, mem_range, hC.eligible_iff hi, mem_Ico]
    omega
  calc C i - J.release i
      = ((range T).filter fun t => J.Eligible σ t i).card := by rw [hall, Nat.card_Ico]
    _ = _ := by
        rw [← card_filter_add_card_filter_not (s := (range T).filter fun t => J.Eligible σ t i)
          (fun t => σ t = some i), filter_filter, filter_filter, hunits]

/-- The response times add up to the lengths and the delays. -/
theorem CompletesAt.sum_delayed (hT : ∀ i ∈ J.jobs, C i ≤ T) :
    ∑ i ∈ J.jobs, (C i - J.release i) =
      ∑ i ∈ J.jobs, J.length i + ∑ t ∈ range T, (J.delayed σ t).card := by
  -- pairs of a job and a time, counted by jobs and by times
  have hswap : ∑ i ∈ J.jobs, ((range T).filter fun t => J.Eligible σ t i ∧ σ t ≠ some i).card =
      ∑ t ∈ range T, (J.delayed σ t).card := by
    simp only [delayed, card_filter]
    exact sum_comm
  rw [← hswap, ← sum_add_distrib]
  exact sum_congr rfl fun i hi => hC.response_eq hL hi (hT i hi)

end

end Jobs
end ProcSched
