/-
  ProcSched.Lib.Gantt

  First come first served in closed form.  With the jobs numbered in release
  order, job `k` starts when it is released and the jobs before it are done, and
  runs through: the schedule runs it exactly in `[fcfsStart k, fcfsEnd (k + 1))`
  (`Fcfs.run_iff`).
-/

import ProcSched.Lib.Compare

namespace ProcSched
namespace Jobs

variable {J : Jobs ℕ} {σ : Schedule ℕ} {n k t : ℕ}

/-- When the jobs before `k` are done. -/
def fcfsEnd (J : Jobs ℕ) : ℕ → ℕ
  | 0 => 0
  | k + 1 => max (J.fcfsEnd k) (J.release k) + J.length k

/-- When job `k` is started. -/
def fcfsStart (J : Jobs ℕ) (k : ℕ) : ℕ := max (J.fcfsEnd k) (J.release k)

@[simp] theorem fcfsEnd_zero (J : Jobs ℕ) : J.fcfsEnd 0 = 0 := rfl

theorem fcfsEnd_succ (J : Jobs ℕ) (k : ℕ) : J.fcfsEnd (k + 1) = J.fcfsStart k + J.length k := rfl

theorem fcfsEnd_le_fcfsStart (J : Jobs ℕ) (k : ℕ) : J.fcfsEnd k ≤ J.fcfsStart k :=
  Nat.le_max_left _ _

theorem release_le_fcfsStart (J : Jobs ℕ) (k : ℕ) : J.release k ≤ J.fcfsStart k :=
  Nat.le_max_right _ _

theorem fcfsEnd_mono (J : Jobs ℕ) : Monotone J.fcfsEnd := by
  refine monotone_nat_of_le_succ fun k => ?_
  rw [fcfsEnd_succ]
  exact (J.fcfsEnd_le_fcfsStart k).trans (Nat.le_add_right _ _)

/-- A job is started after the ones before it are. -/
theorem fcfsStart_lt {j : ℕ} (hpos : 0 < J.length j) (hjk : j < k) :
    J.fcfsStart j < J.fcfsStart k :=
  calc J.fcfsStart j < J.fcfsEnd (j + 1) := by rw [fcfsEnd_succ]; omega
    _ ≤ J.fcfsEnd k := J.fcfsEnd_mono hjk
    _ ≤ J.fcfsStart k := J.fcfsEnd_le_fcfsStart k

theorem fcfsEnd_lt {j : ℕ} (hpos : 0 < J.length k) (hjk : j < k) :
    J.fcfsEnd (j + 1) < J.fcfsEnd (k + 1) :=
  calc J.fcfsEnd (j + 1) ≤ J.fcfsEnd k := J.fcfsEnd_mono hjk
    _ ≤ J.fcfsStart k := J.fcfsEnd_le_fcfsStart k
    _ < J.fcfsEnd (k + 1) := by rw [fcfsEnd_succ]; omega

section Fcfs

variable (h : J.Fcfs σ) (hjobs : J.jobs = Finset.range n)
  (hsorted : ∀ i j, i ≤ j → j < n → J.release i ≤ J.release j)
  (hpos : ∀ i < n, 0 < J.length i)
include h hjobs hsorted

/-- Before job `k` is started only jobs before it are run. -/
theorem Fcfs.lt_of_run_before (hk : k < n) (hstarts : ∀ j < k, σ.Starts (J.fcfsStart j) j) {i : ℕ}
    (ht : t < J.fcfsStart k) (hrun : σ t = some i) : i < k := by
  by_contra hge
  have hel := h.legal t i hrun
  have hi : i < n := by
    rw [← Finset.mem_range, ← hjobs]
    exact hel.mem
  have hreleased := (hsorted k i (Nat.le_of_not_lt hge) hi).trans hel.released
  have hbusy : t < J.fcfsEnd k := by
    by_contra hlate
    have hle : J.fcfsStart k ≤ t := Nat.max_le.mpr ⟨Nat.le_of_not_lt hlate, hreleased⟩
    omega
  -- the first job that is not done at `t` is the one that is run
  have hex : ∃ j, t < J.fcfsEnd (j + 1) := ⟨k, hbusy.trans_le (J.fcfsEnd_mono (Nat.le_succ k))⟩
  have hspec := Nat.find_spec hex
  have hmin := fun m (hm : m < Nat.find hex) => Nat.find_min hex hm
  have hlt : Nat.find hex < k := by
    obtain ⟨m, rfl⟩ : ∃ m, k = m + 1 := by
      cases k with
      | zero => exact absurd hbusy (Nat.not_lt_zero t)
      | succ m => exact ⟨m, rfl⟩
    exact Nat.lt_succ_of_le (Nat.find_min' hex hbusy)
  generalize Nat.find hex = j at hspec hmin hlt
  have hend : J.fcfsEnd j ≤ t := by
    cases j with
    | zero => exact Nat.zero_le t
    | succ m => exact Nat.le_of_not_lt (hmin m (Nat.lt_succ_self m))
  have hstart : J.fcfsStart j ≤ t :=
    Nat.max_le.mpr ⟨hend, (hsorted j k hlt.le hk).trans hreleased⟩
  have hrunj := (run_iff_of_starts h.keep h.legal (hstarts j hlt)).mpr ⟨hstart, hspec⟩
  rw [hrun, Option.some.injEq] at hrunj
  omega

include hpos

/-- Job `k` is started when it is released and the jobs before it are done. -/
theorem Fcfs.starts (hk : k < n) : σ.Starts (J.fcfsStart k) k := by
  -- the starts of the jobs before `k` say what the processor does until `k` is started
  induction k using Nat.strongRecOn with
  | ind k ih =>
      have hstarts : ∀ j < k, σ.Starts (J.fcfsStart j) j := fun j hj => ih j hj (hj.trans hk)
      have hbefore : ∀ t < J.fcfsStart k, ∀ i, σ t = some i → i < k := fun t ht i hrun =>
        h.lt_of_run_before hjobs hsorted hk hstarts ht hrun
      -- the jobs before `k` are done by then
      have hdone : ∀ j < k, J.length j ≤ σ.served (J.fcfsStart k) j := by
        intro j hj
        have hle : J.fcfsStart j + J.length j ≤ J.fcfsStart k := by
          rw [← fcfsEnd_succ]
          exact (J.fcfsEnd_mono hj).trans (J.fcfsEnd_le_fcfsStart k)
        rw [← served_end_of_starts h.keep h.legal (hstarts j hj)]
        exact Schedule.served_le_served j hle
      have hzero : σ.served (J.fcfsStart k) k = 0 := by
        rw [Schedule.served_eq_of_not_run (Nat.zero_le _), Schedule.served_zero]
        intro t _ ht hrun
        exact absurd (hbefore t ht k hrun) (Nat.lt_irrefl k)
      have hel : J.Eligible σ (J.fcfsStart k) k :=
        ⟨by rw [hjobs]; exact Finset.mem_range.mpr hk, J.release_le_fcfsStart k, by
          rw [hzero]
          exact hpos k hk⟩
      -- so the processor is free at the start of `k`, whoever had it before
      have hprev : ∀ i, σ.prev (J.fcfsStart k) = some i → i < k := by
        intro i hi
        cases hs : J.fcfsStart k with
        | zero => simp [hs] at hi
        | succ t =>
            rw [hs] at hi
            exact hbefore t (by omega) i hi
      have hcur : J.current σ (J.fcfsStart k) = none :=
        current_eq_none.mpr fun i hi => hdone i (hprev i hi)
      obtain ⟨i, hrun⟩ := Option.ne_none_iff_exists'.mp (h.busy _ k hel)
      -- what is run then is eligible and was released first; the jobs before `k` are done
      have hik : i = k := by
        have hle := h.first _ i k hcur hrun hel
        have hunf := (h.legal _ i hrun).unfinished
        by_contra hne
        have := hdone i (by omega)
        omega
      subst hik
      exact ⟨hrun, fun hp => absurd (hprev i hp) (Nat.lt_irrefl i)⟩

/-- The schedule runs job `k` from its start to its end. -/
theorem Fcfs.run_iff (hk : k < n) :
    σ t = some k ↔ J.fcfsStart k ≤ t ∧ t < J.fcfsEnd (k + 1) :=
  run_iff_of_starts h.keep h.legal (h.starts hjobs hsorted hpos hk)

/-- It is started once. -/
theorem Fcfs.starts_iff {c : ℕ} (hk : k < n) : σ.Starts c k ↔ c = J.fcfsStart k := by
  constructor
  · intro hs
    obtain ⟨hle, hlt⟩ := (h.run_iff hjobs hsorted hpos hk).mp hs.1
    by_contra hne
    -- a later unit of `k` comes after a unit of `k`, so it is no start
    obtain ⟨u, rfl⟩ : ∃ u, c = u + 1 := ⟨c - 1, by omega⟩
    exact hs.2 ((h.run_iff hjobs hsorted hpos hk).mpr ⟨by omega, by omega⟩)
  · rintro rfl
    exact h.starts hjobs hsorted hpos hk

/-- It is finished from its end on. -/
theorem Fcfs.finished_iff (hk : k < n) : J.length k ≤ σ.served t k ↔ J.fcfsEnd (k + 1) ≤ t := by
  have hs := h.starts hjobs hsorted hpos hk
  constructor
  · intro hdone
    by_contra hlt
    have hone := hpos k hk
    have hend := J.fcfsEnd_succ k
    -- the last unit is still to come
    have hlast := (h.run_iff (t := J.fcfsEnd (k + 1) - 1) hjobs hsorted hpos hk).mpr
      ⟨by omega, by omega⟩
    have hunf := (h.legal _ k hlast).unfinished
    have hmono := Schedule.served_le_served (σ := σ) k (show t ≤ J.fcfsEnd (k + 1) - 1 by omega)
    omega
  · intro hle
    rw [← served_end_of_starts h.keep h.legal hs]
    exact Schedule.served_le_served k hle

/-- All jobs are done with the last one. -/
theorem Fcfs.finished_iff_fcfsEnd : J.Finished σ t ↔ J.fcfsEnd n ≤ t := by
  have hiff := fun k hk => h.finished_iff (t := t) (k := k) hjobs hsorted hpos hk
  constructor
  · intro hfin
    cases n with
    | zero => exact Nat.zero_le t
    | succ n =>
        exact (hiff n (Nat.lt_succ_self n)).mp (hfin n (by
          rw [hjobs]
          exact Finset.self_mem_range_succ n))
  · intro hle i hi
    have hi : i < n := by
      rw [hjobs] at hi
      exact Finset.mem_range.mp hi
    exact (hiff i hi).mpr ((J.fcfsEnd_mono hi).trans hle)

end Fcfs

end Jobs
end ProcSched
