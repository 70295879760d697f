/-
  ProcSched.Lib.Policies

  Four scheduling policies as laws of a schedule: what the job run at time `t`
  has to be, in terms of the eligible jobs, the work they have left and the job
  of the previous unit.  Ties go to the smaller job, so every law determines
  the schedule.

  `Matches J K f T` says that `f` carries the jobs of `J` released by time `T`
  onto those of `K`.  Under it, two schedules with the same law run
  corresponding jobs up to time `T` (the `matching` theorems), whatever `J` and
  `K` hold after `T`.
-/

import ProcSched.Lib.Srpt
import Mathlib.Order.Defs.LinearOrder

namespace ProcSched
namespace Jobs

variable {ι κ : Type}

section Current

variable [DecidableEq ι] (J : Jobs ι)

/-- The job of the previous unit, if it is not finished. -/
def current (σ : Schedule ι) (t : ℕ) : Option ι :=
  (σ.prev t).filter fun i => σ.served t i < J.length i

variable {J} {σ : Schedule ι} {t : ℕ} {i : ι}

theorem current_eq_some :
    J.current σ t = some i ↔ σ.prev t = some i ∧ σ.served t i < J.length i := by
  simp [current, Option.filter_eq_some_iff]

/-- No job is carried over exactly when the one of the previous unit, if any,
    is finished. -/
theorem current_eq_none :
    J.current σ t = none ↔ ∀ i, σ.prev t = some i → J.length i ≤ σ.served t i := by
  simp [current, Option.filter_eq_none_iff]

theorem current_zero (σ : Schedule ι) : J.current σ 0 = none := rfl

/-- A job is still being run in the next unit if it is not finished. -/
theorem current_succ (hrun : σ t = some i) (hlt : σ.served (t + 1) i < J.length i) :
    J.current σ (t + 1) = some i :=
  current_eq_some.mpr ⟨hrun, hlt⟩

theorem Legal.eligible_current (hL : J.Legal σ) (h : J.current σ t = some i) :
    J.Eligible σ t i := by
  obtain ⟨hprev, hlt⟩ := current_eq_some.mp h
  cases t with
  | zero => simp at hprev
  | succ t =>
      have hel := hL t i hprev
      exact ⟨hel.mem, hel.released.trans (Nat.le_succ t), hlt⟩

/-- How many jobs are finished at time `t`. -/
def completed (J : Jobs ι) (σ : Schedule ι) (t : ℕ) : ℕ :=
  (J.jobs.filter fun i => J.length i ≤ σ.served t i).card

theorem finished_iff_completed : J.Finished σ t ↔ J.completed σ t = J.jobs.card := by
  rw [completed, Finset.card_filter_eq_iff]
  rfl

theorem completed_le (J : Jobs ι) (σ : Schedule ι) (t : ℕ) : J.completed σ t ≤ J.jobs.card :=
  Finset.card_filter_le _ _

theorem card_unfinished_add_completed (J : Jobs ι) (σ : Schedule ι) (t : ℕ) :
    (J.unfinished σ t).card + J.completed σ t = J.jobs.card := by
  rw [unfinished, completed, ← Finset.card_filter_add_card_filter_not
    (s := J.jobs) (fun i => σ.served t i < J.length i)]
  simp only [Nat.not_lt]

/-- A shortest-first schedule has always finished at least as many jobs. -/
theorem ShortestFirst.completed_le_completed {τ : Schedule ι} (hσ : J.ShortestFirst σ)
    (hτ : J.Legal τ) (hpos : ∀ i ∈ J.jobs, 0 < J.length i) (t : ℕ) :
    J.completed τ t ≤ J.completed σ t := by
  have h := hσ.card_unfinished_le hτ hpos t
  have h₁ := J.card_unfinished_add_completed σ t
  have h₂ := J.card_unfinished_add_completed τ t
  omega

/-- One more job is finished exactly when the unit at `t` was the last of its
    job. -/
theorem completed_succ (hel : ∀ i, σ t = some i → J.Eligible σ t i) :
    J.completed σ (t + 1) = J.completed σ t +
      if σ t ≠ none ∧ J.current σ (t + 1) = none then 1 else 0 := by
  cases hrun : σ t with
  | none =>
      rw [if_neg fun h => h.1 rfl, Nat.add_zero]
      simp only [completed, Schedule.served_succ, hrun, reduceCtorEq, if_false, Nat.add_zero]
  | some i =>
      have hi := hel i hrun
      have hother : ∀ j, j ≠ i → σ.served (t + 1) j = σ.served t j := fun j hj =>
        Schedule.served_succ_other fun h => hj (Option.some.inj (h.symm.trans hrun))
      have hself := Schedule.served_succ_self hrun
      have hunfin := hi.unfinished
      have hnone : J.current σ (t + 1) = none ↔ J.length i ≤ σ.served (t + 1) i := by
        rw [current_eq_none]
        constructor
        · exact fun h => h i hrun
        · intro h j hj
          rw [Schedule.prev_succ, hrun, Option.some.injEq] at hj
          rw [← hj]
          exact h
      by_cases hlast : J.length i ≤ σ.served (t + 1) i
      · rw [if_pos ⟨Option.some_ne_none i, hnone.mpr hlast⟩]
        have hset : (J.jobs.filter fun j => J.length j ≤ σ.served (t + 1) j)
            = insert i (J.jobs.filter fun j => J.length j ≤ σ.served t j) := by
          ext j
          rw [Finset.mem_insert, Finset.mem_filter, Finset.mem_filter]
          by_cases hj : j = i
          · subst hj
            exact ⟨fun _ => Or.inl rfl, fun _ => ⟨hi.mem, hlast⟩⟩
          · rw [hother j hj]
            exact ⟨Or.inr, fun h => h.resolve_left hj⟩
        rw [completed, hset, Finset.card_insert_of_notMem fun hm => by
          have := (Finset.mem_filter.mp hm).2
          omega]
        rfl
      · rw [if_neg fun h => hlast (hnone.mp h.2), Nat.add_zero]
        have hset : (J.jobs.filter fun j => J.length j ≤ σ.served (t + 1) j)
            = J.jobs.filter fun j => J.length j ≤ σ.served t j := by
          apply Finset.filter_congr
          intro j _
          by_cases hj : j = i
          · subst hj
            omega
          · rw [hother j hj]
        rw [completed, hset]
        rfl

/-- Work left of job `i`. -/
def left (J : Jobs ι) (σ : Schedule ι) (t : ℕ) (i : ι) : ℕ := J.length i - σ.served t i

end Current

/-! ## The policies -/

section Policies

variable [LinearOrder ι] (J : Jobs ι)

/-- First come first served: a job keeps the processor until it is finished,
    then the first eligible job gets it. -/
structure Fcfs (σ : Schedule ι) : Prop where
  legal : J.Legal σ
  busy : J.Busy σ
  keep : ∀ t r, J.current σ t = some r → σ t = some r
  first : ∀ t i j, J.current σ t = none → σ t = some i → J.Eligible σ t j → i ≤ j

/-- Shortest job next: a job keeps the processor until it is finished, then the
    first of the eligible jobs with least work gets it. -/
structure Sjn (σ : Schedule ι) : Prop where
  legal : J.Legal σ
  busy : J.Busy σ
  keep : ∀ t r, J.current σ t = some r → σ t = some r
  least : ∀ t i j, J.current σ t = none → σ t = some i → J.Eligible σ t j →
    J.left σ t i < J.left σ t j ∨ J.left σ t i = J.left σ t j ∧ i ≤ j

/-- Shortest remaining work first, the first of several. -/
structure Srpt (σ : Schedule ι) : Prop where
  legal : J.Legal σ
  busy : J.Busy σ
  least : ∀ t i j, σ t = some i → J.Eligible σ t j →
    J.left σ t i < J.left σ t j ∨ J.left σ t i = J.left σ t j ∧ i ≤ j

/-- `i` is the eligible job next to `r` in cyclic order, `r` itself last. -/
def NextAfter (σ : Schedule ι) (t : ℕ) (r i : ι) : Prop :=
  (r < i ∧ ∀ j, J.Eligible σ t j → r < j → i ≤ j) ∨
    (i ≤ r ∧ ∀ j, J.Eligible σ t j → j ≤ r ∧ i ≤ j)

/-- Round robin with a quantum: whenever the time since the last change is a
    multiple of the quantum the processor goes to the cyclically next eligible
    job; after a finish it goes to the first one. -/
structure RoundRobin (quantum : ℕ) (σ : Schedule ι) : Prop where
  legal : J.Legal σ
  busy : J.Busy σ
  first : ∀ t i j, J.current σ t = none → σ t = some i → J.Eligible σ t j → i ≤ j
  keep : ∀ t r, J.current σ t = some r → (t - σ.lastStart t) % quantum ≠ 0 → σ t = some r
  rotate : ∀ t r i, J.current σ t = some r → (t - σ.lastStart t) % quantum = 0 →
    σ t = some i → J.NextAfter σ t r i

variable {J} {σ : Schedule ι}

theorem Srpt.shortestFirst (h : J.Srpt σ) : J.ShortestFirst σ where
  legal := h.legal
  busy := h.busy
  shortest t i j hrun hj := by
    have := h.least t i j hrun hj
    simp only [left] at this
    omega

end Policies

/-! ## Corresponding jobs -/

section Matching

/-- `f` carries the jobs of `J` released by time `T` onto those of `K`. -/
structure Matches (J : Jobs ι) (K : Jobs κ) (f : ι → κ) (T : ℕ) : Prop where
  mem : ∀ i ∈ J.jobs, J.release i ≤ T → f i ∈ K.jobs
  release : ∀ i ∈ J.jobs, J.release i ≤ T → K.release (f i) = J.release i
  length : ∀ i ∈ J.jobs, J.release i ≤ T → K.length (f i) = J.length i
  surj : ∀ k ∈ K.jobs, K.release k ≤ T → ∃ i ∈ J.jobs, J.release i ≤ T ∧ f i = k
  inj : ∀ i ∈ J.jobs, J.release i ≤ T → ∀ j ∈ J.jobs, J.release j ≤ T → f i = f j → i = j

theorem Matches.refl (J : Jobs ι) (T : ℕ) : J.Matches J id T where
  mem _ hi _ := hi
  release _ _ _ := rfl
  length _ _ _ := rfl
  surj k hk hT := ⟨k, hk, hT, rfl⟩
  inj _ _ _ _ _ _ h := h

variable {J : Jobs ι} {K : Jobs κ} {f : ι → κ} {T : ℕ} {σ : Schedule ι} {τ : Schedule κ}

/-- The runs correspond before time `t`. -/
def Follows (f : ι → κ) (σ : Schedule ι) (τ : Schedule κ) (t : ℕ) : Prop :=
  ∀ u, u < t → τ u = (σ u).map f

theorem Follows.mono {s t : ℕ} (h : Follows f σ τ t) (hst : s ≤ t) : Follows f σ τ s :=
  fun u hu => h u (by omega)

theorem Follows.prev_eq {t : ℕ} (hF : Follows f σ τ t) : τ.prev t = (σ.prev t).map f := by
  cases t with
  | zero => rfl
  | succ t => exact hF t (Nat.lt_succ_self t)

/-- Schedules whose every unit is determined by the units before it correspond. -/
theorem follows_of_step (h : ∀ t, t ≤ T → Follows f σ τ t → τ t = (σ t).map f) :
    ∀ t, t ≤ T → τ t = (σ t).map f := by
  intro t
  induction t using Nat.strongRecOn with
  | ind t ih => exact fun ht => h t ht fun u hu => ih u hu (by omega)

variable [DecidableEq ι]

theorem Matches.map_eq_iff (hM : J.Matches K f T) (hL : J.Legal σ) {u : ℕ} {i : ι} (hu : u ≤ T)
    (hi : i ∈ J.jobs) (hT : J.release i ≤ T) : (σ u).map f = some (f i) ↔ σ u = some i := by
  constructor
  · intro h
    obtain ⟨j, hj, hji⟩ := Option.map_eq_some_iff.mp h
    have hel := hL u j hj
    rw [hj, hM.inj j hel.mem (hel.released.trans hu) i hi hT hji]
  · intro h
    rw [h, Option.map_some]

variable [DecidableEq κ]

section

variable (hM : J.Matches K f T) (hL : J.Legal σ)
include hM hL

theorem Matches.served_eq {t : ℕ} {i : ι} (ht : t ≤ T) (hF : Follows f σ τ t)
    (hi : i ∈ J.jobs) (hT : J.release i ≤ T) : τ.served t (f i) = σ.served t i := by
  induction t with
  | zero => rfl
  | succ t ih =>
      have hiff := hM.map_eq_iff hL (u := t) (by omega) hi hT
      rw [Schedule.served_succ, Schedule.served_succ, ih (by omega) (hF.mono (by omega)),
        hF t (by omega)]
      simp only [hiff]

theorem Matches.eligible {t : ℕ} {i : ι} (ht : t ≤ T) (hF : Follows f σ τ t)
    (hi : J.Eligible σ t i) : K.Eligible τ t (f i) := by
  have hT := hi.released.trans ht
  refine ⟨hM.mem i hi.mem hT, ?_, ?_⟩
  · rw [hM.release i hi.mem hT]
    exact hi.released
  · rw [hM.served_eq hL ht hF hi.mem hT, hM.length i hi.mem hT]
    exact hi.unfinished

theorem Matches.eligible_inv {t : ℕ} {k : κ} (ht : t ≤ T) (hF : Follows f σ τ t)
    (hk : K.Eligible τ t k) : ∃ i, f i = k ∧ J.Eligible σ t i := by
  obtain ⟨i, hi, hT, rfl⟩ := hM.surj k hk.mem (hk.released.trans ht)
  refine ⟨i, rfl, hi, ?_, ?_⟩
  · rw [← hM.release i hi hT]
    exact hk.released
  · rw [← hM.served_eq hL ht hF hi hT, ← hM.length i hi hT]
    exact hk.unfinished

theorem Matches.left_eq {t : ℕ} {i : ι} (ht : t ≤ T) (hF : Follows f σ τ t)
    (hi : J.Eligible σ t i) : K.left τ t (f i) = J.left σ t i := by
  have hT := hi.released.trans ht
  rw [left, left, hM.served_eq hL ht hF hi.mem hT, hM.length i hi.mem hT]

theorem Matches.current_eq {t : ℕ} (ht : t ≤ T) (hF : Follows f σ τ t) :
    K.current τ t = (J.current σ t).map f := by
  have hprev : τ.prev t = (σ.prev t).map f := hF.prev_eq
  cases hp : σ.prev t with
  | none =>
      rw [hp, Option.map_none] at hprev
      simp [current, hp, hprev]
  | some r =>
      rw [hp, Option.map_some] at hprev
      -- the job of the previous unit was released by then
      have hr : r ∈ J.jobs ∧ J.release r ≤ T := by
        cases t with
        | zero => simp at hp
        | succ t =>
            have := hL t r hp
            exact ⟨this.mem, by have := this.released; omega⟩
      have hserved := hM.served_eq hL ht hF hr.1 hr.2
      have hlength := hM.length r hr.1 hr.2
      simp only [current, hp, hprev, Option.filter_some, hserved, hlength]
      split <;> rfl

theorem Matches.lastStart_eq {t : ℕ} (ht : t ≤ T) (hF : Follows f σ τ t) :
    τ.lastStart t = σ.lastStart t := by
  induction t with
  | zero => rfl
  | succ t ih =>
      have hprev := (hF.mono (Nat.le_succ t)).prev_eq
      have hiff : (τ t ≠ none ∧ τ t ≠ τ.prev t) ↔ (σ t ≠ none ∧ σ t ≠ σ.prev t) := by
        rw [hF t (Nat.lt_succ_self t), hprev]
        cases hrun : σ t with
        | none => simp
        | some i =>
            have hel := hL t i hrun
            have hsame : (σ.prev t).map f = some (f i) ↔ σ.prev t = some i := by
              cases t with
              | zero => simp
              | succ t => exact hM.map_eq_iff hL (by omega) hel.mem (hel.released.trans (by omega))
            simp only [Option.map_some, ne_eq, reduceCtorEq, not_false_eq_true, true_and]
            rw [eq_comm, hsame, eq_comm]
      rw [Schedule.lastStart_succ, Schedule.lastStart_succ,
        ih (by omega) (hF.mono (Nat.le_succ t))]
      simp only [hiff]

end

/-- Two busy legal schedules idle together, and otherwise both run something. -/
theorem Matches.some_or_none (hM : J.Matches K f T) (hL : J.Legal σ) (hB : J.Busy σ)
    (hL' : K.Legal τ) (hB' : K.Busy τ) {t : ℕ} (ht : t ≤ T) (hF : Follows f σ τ t) :
    (σ t = none ∧ τ t = none) ∨
      ∃ i j, σ t = some i ∧ τ t = some (f j) ∧ J.Eligible σ t i ∧ J.Eligible σ t j := by
  cases hrun : σ t with
  | none =>
      left
      refine ⟨rfl, ?_⟩
      cases hrun' : τ t with
      | none => rfl
      | some k =>
          obtain ⟨i, -, hi⟩ := hM.eligible_inv hL ht hF (hL' t k hrun')
          exact absurd hrun (hB t i hi)
  | some i =>
      right
      have hi := hL t i hrun
      cases hrun' : τ t with
      | none => exact absurd hrun' (hB' t (f i) (hM.eligible hL ht hF hi))
      | some k =>
          obtain ⟨j, rfl, hj⟩ := hM.eligible_inv hL ht hF (hL' t k hrun')
          exact ⟨i, j, rfl, rfl, hi, hj⟩

end Matching

/-! ## The policies determine the schedule -/

section Determined

variable [LinearOrder ι] [LinearOrder κ] {J : Jobs ι} {K : Jobs κ} {f : ι → κ} {T : ℕ}
  {σ : Schedule ι} {τ : Schedule κ}

/-- `f` keeps the order of the jobs released by time `T`. -/
def KeepsOrder (J : Jobs ι) (f : ι → κ) (T : ℕ) : Prop :=
  ∀ i ∈ J.jobs, J.release i ≤ T → ∀ j ∈ J.jobs, J.release j ≤ T → i ≤ j → f i ≤ f j

theorem KeepsOrder.refl (J : Jobs ι) (T : ℕ) : J.KeepsOrder id T :=
  fun _ _ _ _ _ _ h => h

/-- Shortest remaining work first: corresponding jobs are run if jobs with the
    same work left come in the same order on both sides. -/
theorem Srpt.matching (hσ : J.Srpt σ) (hτ : K.Srpt τ) (hM : J.Matches K f T)
    (hties : ∀ t i j, t ≤ T → σ t = some i → J.Eligible σ t j →
      J.left σ t i = J.left σ t j → f i ≤ f j) :
    ∀ t, t ≤ T → τ t = (σ t).map f := by
  apply follows_of_step
  intro t ht hF
  rcases hM.some_or_none hσ.legal hσ.busy hτ.legal hτ.busy ht hF with
    ⟨h, h'⟩ | ⟨i, j, h, h', hi, hj⟩
  · rw [h, h', Option.map_none]
  · rw [h, h', Option.map_some]
    have h₁ := hσ.least t i j h hj
    have h₂ := hτ.least t (f j) (f i) h' (hM.eligible hσ.legal ht hF hi)
    rw [hM.left_eq hσ.legal ht hF hi, hM.left_eq hσ.legal ht hF hj] at h₂
    have heq : J.left σ t i = J.left σ t j := by omega
    have hle : f j ≤ f i := by
      rcases h₂ with h₂ | h₂
      · omega
      · exact h₂.2
    rw [le_antisymm hle (hties t i j ht h hj heq)]

/-- `f` keeping the order settles all ties. -/
theorem KeepsOrder.ties (hO : J.KeepsOrder f T) (hσ : J.Srpt σ) :
    ∀ t i j, t ≤ T → σ t = some i → J.Eligible σ t j →
      J.left σ t i = J.left σ t j → f i ≤ f j := by
  intro t i j ht hrun hj heq
  have hi := hσ.legal t i hrun
  have h := hσ.least t i j hrun hj
  exact hO i hi.mem (hi.released.trans ht) j hj.mem (hj.released.trans ht) (by
    rcases h with h | h
    · omega
    · exact h.2)

section

variable (hM : J.Matches K f T) (hO : J.KeepsOrder f T)
include hM hO

omit hO in
/-- Two schedules that keep the running job follow each other if they do so at every
    dispatch. -/
theorem matching_of_dispatch (hL : J.Legal σ) (hB : J.Busy σ) (hL' : K.Legal τ) (hB' : K.Busy τ)
    (hkeep : ∀ t r, J.current σ t = some r → σ t = some r)
    (hkeep' : ∀ t r, K.current τ t = some r → τ t = some r)
    (hdispatch : ∀ t i j, t ≤ T → Follows f σ τ t → J.current σ t = none → K.current τ t = none →
      σ t = some i → τ t = some (f j) → J.Eligible σ t i → J.Eligible σ t j → f j = f i) :
    ∀ t, t ≤ T → τ t = (σ t).map f := by
  apply follows_of_step
  intro t ht hF
  have hcur := hM.current_eq hL ht hF
  rcases hM.some_or_none hL hB hL' hB' ht hF with ⟨h, h'⟩ | ⟨i, j, h, h', hi, hj⟩
  · rw [h, h', Option.map_none]
  · cases hc : J.current σ t with
    | some r =>
        rw [hc, Option.map_some] at hcur
        rw [hkeep t r hc, hkeep' t (f r) hcur, Option.map_some]
    | none =>
        rw [hc, Option.map_none] at hcur
        rw [h, h', Option.map_some, hdispatch t i j ht hF hc hcur h h' hi hj]

theorem Fcfs.matching (hσ : J.Fcfs σ) (hτ : K.Fcfs τ) : ∀ t, t ≤ T → τ t = (σ t).map f := by
  refine matching_of_dispatch hM hσ.legal hσ.busy hτ.legal hτ.busy hσ.keep hτ.keep ?_
  intro t i j ht hF hc hcur h h' hi hj
  have hij := hO i hi.mem (hi.released.trans ht) j hj.mem (hj.released.trans ht)
    (hσ.first t i j hc h hj)
  have hji := hτ.first t (f j) (f i) hcur h' (hM.eligible hσ.legal ht hF hi)
  exact le_antisymm hji hij

theorem Sjn.matching (hσ : J.Sjn σ) (hτ : K.Sjn τ) : ∀ t, t ≤ T → τ t = (σ t).map f := by
  refine matching_of_dispatch hM hσ.legal hσ.busy hτ.legal hτ.busy hσ.keep hτ.keep ?_
  intro t i j ht hF hc hcur h h' hi hj
  have h₁ := hσ.least t i j hc h hj
  have h₂ := hτ.least t (f j) (f i) hcur h' (hM.eligible hσ.legal ht hF hi)
  rw [hM.left_eq hσ.legal ht hF hi, hM.left_eq hσ.legal ht hF hj] at h₂
  -- each of the two is at most the other, so the work left is the same
  obtain ⟨-, hij⟩ := h₁.resolve_left (by omega)
  obtain ⟨-, hji⟩ := h₂.resolve_left (by omega)
  exact le_antisymm hji (hO i hi.mem (hi.released.trans ht) j hj.mem (hj.released.trans ht) hij)

omit hM hO in
/-- There is one eligible job next to `r`. -/
theorem NextAfter.unique {t : ℕ} {r i j : ι} (hi : J.Eligible σ t i) (hj : J.Eligible σ t j)
    (h : J.NextAfter σ t r i) (h' : J.NextAfter σ t r j) : i = j := by
  rcases h with ⟨hri, hleast⟩ | ⟨hir, hleast⟩ <;> rcases h' with ⟨hrj, hleast'⟩ | ⟨hjr, hleast'⟩
  · exact le_antisymm (hleast j hj hrj) (hleast' i hi hri)
  · exact absurd hri (not_lt.mpr (hleast' i hi).1)
  · exact absurd hrj (not_lt.mpr (hleast j hj).1)
  · exact le_antisymm (hleast j hj).2 (hleast' i hi).2

theorem NextAfter.matching (hL : J.Legal σ) {t : ℕ} (ht : t ≤ T) (hF : Follows f σ τ t)
    {r i : ι} (hr : J.Eligible σ t r) (hi : J.Eligible σ t i) (h : J.NextAfter σ t r i) :
    K.NextAfter τ t (f r) (f i) := by
  have hle : ∀ {a b}, J.Eligible σ t a → J.Eligible σ t b → a ≤ b → f a ≤ f b :=
    fun ha hb => hO _ ha.mem (ha.released.trans ht) _ hb.mem (hb.released.trans ht)
  have hlt : ∀ {a b}, J.Eligible σ t a → J.Eligible σ t b → a < b → f a < f b :=
    fun ha hb hab => lt_of_le_of_ne (hle ha hb hab.le) fun he =>
      hab.ne (hM.inj _ ha.mem (ha.released.trans ht) _ hb.mem (hb.released.trans ht) he)
  rcases h with ⟨hri, hleast⟩ | ⟨hir, hleast⟩
  · refine Or.inl ⟨hlt hr hi hri, fun k hk hrk => ?_⟩
    obtain ⟨j, rfl, hj⟩ := hM.eligible_inv hL ht hF hk
    rcases lt_or_ge r j with hrj | hjr
    · exact hle hi hj (hleast j hj hrj)
    · exact absurd hrk (not_lt.mpr (hle hj hr hjr))
  · refine Or.inr ⟨hle hi hr hir, fun k hk => ?_⟩
    obtain ⟨j, rfl, hj⟩ := hM.eligible_inv hL ht hF hk
    exact ⟨hle hj hr (hleast j hj).1, hle hi hj (hleast j hj).2⟩

theorem RoundRobin.matching {q : ℕ} (hσ : J.RoundRobin q σ) (hτ : K.RoundRobin q τ) :
    ∀ t, t ≤ T → τ t = (σ t).map f := by
  apply follows_of_step
  intro t ht hF
  have hcur := hM.current_eq hσ.legal ht hF
  have hlast := hM.lastStart_eq hσ.legal ht hF
  rcases hM.some_or_none hσ.legal hσ.busy hτ.legal hτ.busy ht hF with
    ⟨h, h'⟩ | ⟨i, j, h, h', hi, hj⟩
  · rw [h, h', Option.map_none]
  · rw [h, h', Option.map_some]
    cases hc : J.current σ t with
    | some r =>
        rw [hc, Option.map_some] at hcur
        by_cases hq : (t - σ.lastStart t) % q = 0
        · have hr := hσ.legal.eligible_current hc
          have hnext := (hσ.rotate t r i hc hq h).matching hM hO hσ.legal ht hF hr hi
          have hnext' := hτ.rotate t (f r) (f j) hcur (by rw [hlast]; exact hq) h'
          rw [hnext.unique (hM.eligible hσ.legal ht hF hi) (hM.eligible hσ.legal ht hF hj) hnext']
        · have h₁ := hσ.keep t r hc hq
          have h₂ := hτ.keep t (f r) hcur (by rw [hlast]; exact hq)
          rw [h, Option.some.injEq] at h₁
          rw [h', Option.some.injEq] at h₂
          rw [h₁, h₂]
    | none =>
        rw [hc, Option.map_none] at hcur
        have hij := hO i hi.mem (hi.released.trans ht) j hj.mem (hj.released.trans ht)
          (hσ.first t i j hc h hj)
        have hji := hτ.first t (f j) (f i) hcur h' (hM.eligible hσ.legal ht hF hi)
        rw [le_antisymm hji hij]

end

end Determined

end Jobs
end ProcSched
