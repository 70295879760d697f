/-
  ProcSched.Lib.Turnaround

  Turnaround times, from the release of a job to its completion.  A busy
  processor spends that time on units of the jobs, so bounds on what each job
  gets of it bound the turnaround (`CompletesAt.turnaround_le`): under shortest
  remaining work first nobody gets more than the job itself needs, under
  shortest job next only the jobs that are not longer get anything, apart from
  one on the processor at the release.  First come first served has the least
  maximal turnaround of all schedules (`Fcfs.max_turnaround`).
-/

import Mathlib.Algebra.BigOperators.Intervals
import Mathlib.Order.Lattice.Nat
import ProcSched.Lib.Gantt

namespace ProcSched
namespace Jobs

open Finset

variable {ι : Type} {s t d : ℕ} {i j : ι}

section Units

variable [DecidableEq ι] {J : Jobs ι} {σ : Schedule ι} {C : ι → ℕ}

/-- A set of jobs gets at most one unit per unit of time. -/
theorem sum_served_le (σ : Schedule ι) (A : Finset ι) (s d : ℕ) :
    ∑ j ∈ A, σ.served (s + d) j ≤ ∑ j ∈ A, σ.served s j + d := by
  induction d with
  | zero => exact Nat.le_refl _
  | succ d ih =>
      have hone : ∑ j ∈ A, (if σ (s + d) = some j then 1 else 0) ≤ 1 := by
        cases σ (s + d) with
        | none => simp
        | some x =>
            simp only [Option.some.injEq, sum_ite_eq]
            split <;> omega
      have hsucc : ∑ j ∈ A, σ.served (s + (d + 1)) j ≤ ∑ j ∈ A, σ.served (s + d) j + 1 := by
        rw [← Nat.add_assoc]
        simp only [Schedule.served_succ, sum_add_distrib]
        exact Nat.add_le_add_left hone _
      omega

/-- Nothing has been done for a job when it is released. -/
theorem Legal.eligible_release (hL : J.Legal σ) (hi : i ∈ J.jobs) (hpos : 0 < J.length i) :
    J.Eligible σ (J.release i) i :=
  ⟨hi, Nat.le_refl _, by rwa [hL.served_eq_zero (Nat.le_refl _)]⟩

variable (hL : J.Legal σ) (hB : J.Busy σ)
include hL hB

/-- The processor does a unit of work whenever a job is eligible. -/
theorem Busy.progress_add (h : ∀ u, s ≤ u → u < s + d → J.Eligible σ u i) :
    J.progress σ (s + d) = J.progress σ s + d := by
  induction d with
  | zero => rfl
  | succ d ih =>
      have hrun := hB (s + d) i (h (s + d) (by omega) (by omega))
      rw [← Nat.add_assoc, hL.progress_succ, if_neg hrun, ih fun u hu hud => h u hu (by omega)]
      omega

/-- Whatever bounds the units of every job in that time bounds the turnaround. -/
theorem CompletesAt.turnaround_le (hC : J.CompletesAt σ C) (hi : i ∈ J.jobs) {b : ι → ℕ}
    (hb : ∀ j ∈ J.jobs, σ.served (C i) j ≤ σ.served (J.release i) j + b j) :
    C i ≤ J.release i + ∑ j ∈ J.jobs, b j := by
  rcases Nat.le_total (C i) (J.release i) with hle | hle
  · omega
  · obtain ⟨d, hd⟩ := Nat.exists_eq_add_of_le hle
    have hprogress := hB.progress_add hL (s := J.release i) (d := d) (i := i) fun u hu hud => by
      have := hC i hi u
      exact ⟨hi, hu, by omega⟩
    have hsum := sum_le_sum hb
    rw [sum_add_distrib, hd] at hsum
    simp only [progress] at hprogress
    omega

end Units

/-! ## Shortest first -/

section Shortest

variable [LinearOrder ι] {J : Jobs ι} {σ : Schedule ι} {C : ι → ℕ}

/-- The first unit of a job from `s` on. -/
theorem exists_first_run (h : σ.served s j < σ.served t j) :
    ∃ u, s ≤ u ∧ σ u = some j ∧ σ.served u j = σ.served s j := by
  have hex : ∃ u, s ≤ u ∧ σ u = some j := by
    by_contra hno
    push Not at hno
    rcases Nat.le_total s t with hst | hts
    · rw [Schedule.served_eq_of_not_run hst fun u hu _ => hno u hu] at h
      exact lt_irrefl _ h
    · exact absurd (Schedule.served_le_served j hts) (not_le.mpr h)
  obtain ⟨hsu, hu⟩ := Nat.find_spec hex
  refine ⟨Nat.find hex, hsu, hu, Schedule.served_eq_of_not_run hsu fun v hv hvu he => ?_⟩
  exact Nat.find_min hex hvu ⟨hv, he⟩

/-- Under shortest remaining work first nobody gets more units between the
    release of a job and its completion than the job needs itself. -/
theorem Srpt.turnaround_le (h : J.Srpt σ) (hC : J.CompletesAt σ C) (hi : i ∈ J.jobs) :
    C i ≤ J.release i + ∑ j ∈ J.jobs, min (J.length i) (J.length j) := by
  refine hC.turnaround_le h.legal h.busy hi fun j _ => ?_
  have hlen := h.legal.served_le (C i) (i := j)
  rcases Nat.lt_or_ge (σ.served (J.release i) j) (σ.served (C i) j) with hlt | hge
  · obtain ⟨u, hu, hrun, hserved⟩ := exists_first_run hlt
    have huC : u < C i := by
      by_contra hle
      have := Schedule.served_le_served (σ := σ) j (Nat.le_of_not_lt hle)
      omega
    -- at its first unit the other job has no more left than `i`
    have hel : J.Eligible σ u i := ⟨hi, hu, by
      have := hC i hi u
      omega⟩
    have hleast := h.least u j i hrun hel
    simp only [left] at hleast
    omega
  · omega

/-- A job with some of its units is on the processor or finished. -/
theorem Sjn.current_of_served (h : J.Sjn σ) (hpos : 0 < σ.served t j)
    (hlt : σ.served t j < J.length j) : J.current σ t = some j := by
  induction t with
  | zero => simp at hpos
  | succ t ih =>
      by_cases hrun : σ t = some j
      · exact current_succ hrun hlt
      · rw [Schedule.served_succ_other hrun] at hpos hlt
        exact absurd (h.keep t j (ih hpos hlt)) hrun

/-- Under shortest job next a job waits for those not longer than itself, and
    for at most one longer one, which has had a unit. -/
theorem Sjn.turnaround_le (h : J.Sjn σ) (hC : J.CompletesAt σ C) (hi : i ∈ J.jobs) :
    C i ≤ J.release i + (∑ j ∈ J.jobs with J.length j ≤ J.length i, J.length j) +
      J.jobs.sup fun j => if J.length i < J.length j ∧ J.release j < J.release i
        then J.length j - 1 else 0 := by
  set M := J.jobs.sup fun j => if J.length i < J.length j ∧ J.release j < J.release i
    then J.length j - 1 else 0
  -- the longer job, if there is one
  have hb : ∀ j ∈ J.jobs, σ.served (C i) j ≤ σ.served (J.release i) j +
      ((if J.length j ≤ J.length i then J.length j else 0) +
        if J.current σ (J.release i) = some j then M else 0) := by
    intro j hj
    have hlen := h.legal.served_le (C i) (i := j)
    rcases Nat.lt_or_ge (J.length i) (J.length j) with hlong | hshort
    · rw [if_neg (Nat.not_le.mpr hlong), Nat.zero_add]
      by_cases hcur : J.current σ (J.release i) = some j
      · rw [if_pos hcur]
        obtain ⟨hprev, -⟩ := current_eq_some.mp hcur
        obtain ⟨u, hu⟩ : ∃ u, J.release i = u + 1 := by
          cases hr : J.release i with
          | zero =>
              rw [hr] at hprev
              simp at hprev
          | succ u => exact ⟨u, rfl⟩
        rw [hu, Schedule.prev_succ] at hprev
        have hone := Schedule.served_succ_self hprev
        have hrel := (h.legal u j hprev).released
        have hle : J.length j - 1 ≤ M := by
          have hsup := le_sup (f := fun j => if J.length i < J.length j ∧
            J.release j < J.release i then J.length j - 1 else 0) hj
          rwa [if_pos ⟨hlong, by omega⟩] at hsup
        rw [hu]
        omega
      · rw [if_neg hcur, Nat.add_zero]
        by_contra hlt
        obtain ⟨u, hu, hrun, hserved⟩ := exists_first_run (not_le.mp hlt)
        have huC : u < C i := by
          by_contra hle
          have := Schedule.served_le_served (σ := σ) j (Nat.le_of_not_lt hle)
          omega
        have hel : J.Eligible σ u i := ⟨hi, hu, by
          have := hC i hi u
          omega⟩
        have helj := h.legal u j hrun
        -- it has not been started before, so it was chosen over `i`
        have hzero : σ.served u j = 0 := by
          by_contra hne
          refine hcur (h.current_of_served ?_ ?_) <;> rw [← hserved]
          · exact Nat.pos_of_ne_zero hne
          · exact helj.unfinished
        have hfree : J.current σ u = none := by
          cases hc : J.current σ u with
          | none => rfl
          | some r =>
              have hsame := h.keep u r hc
              rw [hrun, Option.some.injEq] at hsame
              subst hsame
              obtain ⟨hprev, -⟩ := current_eq_some.mp hc
              cases u with
              | zero => simp at hprev
              | succ v =>
                  have := Schedule.served_succ_self (σ := σ) hprev
                  omega
        have hleast := h.least u j i hfree hrun hel
        simp only [left] at hleast
        omega
    · rw [if_pos hshort]
      omega
  refine (hC.turnaround_le h.legal h.busy hi hb).trans ?_
  rw [sum_add_distrib, ← Nat.add_assoc, sum_filter]
  refine Nat.add_le_add_left ?_ _
  cases J.current σ (J.release i) with
  | none => simp
  | some r =>
      simp only [Option.some.injEq, sum_ite_eq]
      split <;> omega

end Shortest

/-! ## First come first served -/

/-- The jobs of a set need their units after the first release. -/
theorem Legal.sum_length_le {J : Jobs ℕ} {τ : Schedule ℕ} {A : Finset ℕ} {T r : ℕ}
    (hL : J.Legal τ) (hA : ∀ k ∈ A, r ≤ J.release k ∧ 0 < J.length k ∧ J.length k ≤ τ.served T k)
    (hne : A.Nonempty) : r + ∑ k ∈ A, J.length k ≤ T := by
  have hrT : r ≤ T := by
    obtain ⟨k, hk⟩ := hne
    obtain ⟨hr, hpos, hdone⟩ := hA k hk
    by_contra hlt
    rw [hL.served_eq_zero (by omega)] at hdone
    omega
  obtain ⟨d, rfl⟩ := Nat.exists_eq_add_of_le hrT
  have hzero : ∑ k ∈ A, τ.served r k = 0 :=
    sum_eq_zero fun k hk => hL.served_eq_zero (hA k hk).1
  have hsum := sum_served_le τ A r d
  have hlen := sum_le_sum fun k hk => (hA k hk).2.2
  omega

/-- A job ends when the processor has been busy since the release of some job
    with the jobs from there on. -/
theorem fcfsEnd_eq (J : Jobs ℕ) (k : ℕ) :
    ∃ m ≤ k, J.fcfsEnd (k + 1) = J.release m + ∑ j ∈ Ico m (k + 1), J.length j := by
  induction k with
  | zero => exact ⟨0, Nat.le_refl 0, by simp [fcfsEnd_succ, fcfsStart]⟩
  | succ k ih =>
      obtain ⟨m, hm, heq⟩ := ih
      rw [fcfsEnd_succ, fcfsStart]
      rcases Nat.le_total (J.release (k + 1)) (J.fcfsEnd (k + 1)) with hle | hle
      · refine ⟨m, by omega, ?_⟩
        have hsum := sum_Ico_succ_top (show m ≤ k + 1 by omega) J.length
        rw [Nat.max_eq_left hle, heq, hsum, Nat.add_assoc]
      · refine ⟨k + 1, Nat.le_refl _, ?_⟩
        rw [Nat.max_eq_right hle, sum_Ico_succ_top (Nat.le_refl _), Ico_self, sum_empty,
          Nat.zero_add]

/-- No schedule has a smaller maximal turnaround: for each job under first come
    first served there is one that has to wait at least as long. -/
theorem Fcfs.max_turnaround {J : Jobs ℕ} {σ τ : Schedule ℕ} {n i : ℕ} {C D : ℕ → ℕ}
    (h : J.Fcfs σ) (hjobs : J.jobs = range n)
    (hsorted : ∀ i j, i ≤ j → j < n → J.release i ≤ J.release j)
    (hpos : ∀ i < n, 0 < J.length i) (hC : J.CompletesAt σ C) (hL : J.Legal τ)
    (hD : J.CompletesAt τ D) (hi : i < n) : ∃ k < n, C i - J.release i ≤ D k - J.release k := by
  have hmem : ∀ {k}, k < n → k ∈ J.jobs := fun {k} hk => by
    rw [hjobs]
    exact mem_range.mpr hk
  have hend : C i = J.fcfsEnd (i + 1) :=
    Nat.le_antisymm
      ((hC i (hmem hi) _).mpr ((h.finished_iff hjobs hsorted hpos hi).mpr (Nat.le_refl _)))
      ((h.finished_iff hjobs hsorted hpos hi).mp ((hC i (hmem hi) _).mp (Nat.le_refl _)))
  obtain ⟨m, hm, heq⟩ := J.fcfsEnd_eq i
  -- the last of the jobs from `m` to `i` to be completed
  obtain ⟨k, hk, hlast⟩ := exists_max_image (Ico m (i + 1)) D ⟨i, mem_Ico.mpr ⟨hm, by omega⟩⟩
  have hk' := mem_Ico.mp hk
  have hle := hL.sum_length_le (A := Ico m (i + 1)) (T := D k) (r := J.release m) (fun j hj => by
    have hj' := mem_Ico.mp hj
    exact ⟨hsorted m j hj'.1 (by omega), hpos j (by omega),
      (hD j (hmem (by omega)) _).mp (hlast j hj)⟩) ⟨i, mem_Ico.mpr ⟨hm, by omega⟩⟩
  have hrel := hsorted k i (by omega) hi
  exact ⟨k, by omega, by omega⟩

end Jobs
end ProcSched
