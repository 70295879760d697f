/-
  ProcSched.Lib.Schedule

  Unit-time schedules of one processor.  A set of jobs has release times and
  lengths; a schedule says for every unit of time which job has the processor,
  if any.  `served σ t i` counts the units job `i` has had before time `t`.

  A schedule is `Legal` when it only runs jobs that are released and
  unfinished, and `Busy` (work-conserving) when it never idles while there is
  such a job.  The total progress of a legal busy schedule is the solution of
  one recurrence that only mentions the released work (`progress_eq_drain`),
  so it does not depend on the policy.
-/

import Mathlib.Algebra.BigOperators.Group.Finset.Piecewise
import Mathlib.Algebra.Order.BigOperators.Group.Finset
import Mathlib.Tactic.Ring

namespace ProcSched

/-- Which job has the processor in each unit of time. -/
abbrev Schedule (ι : Type) := ℕ → Option ι

/-- A set of jobs with release times and lengths. -/
structure Jobs (ι : Type) where
  jobs : Finset ι
  release : ι → ℕ
  length : ι → ℕ

namespace Schedule

variable {ι : Type}

/-- The job that had the processor in the unit before `t`. -/
def prev (σ : Schedule ι) : ℕ → Option ι
  | 0 => none
  | t + 1 => σ t

@[simp] theorem prev_zero (σ : Schedule ι) : σ.prev 0 = none := rfl

@[simp] theorem prev_succ (σ : Schedule ι) (t : ℕ) : σ.prev (t + 1) = σ t := rfl

/-- Job `i` is put on the processor at time `t`. -/
def Starts (σ : Schedule ι) (t : ℕ) (i : ι) : Prop :=
  σ t = some i ∧ σ.prev t ≠ some i

variable [DecidableEq ι]

/-- Units given to job `i` before time `t`. -/
def served (σ : Schedule ι) : ℕ → ι → ℕ
  | 0, _ => 0
  | t + 1, i => served σ t i + if σ t = some i then 1 else 0

@[simp] theorem served_zero (σ : Schedule ι) (i : ι) : σ.served 0 i = 0 := rfl

theorem served_succ (σ : Schedule ι) (t : ℕ) (i : ι) :
    σ.served (t + 1) i = σ.served t i + if σ t = some i then 1 else 0 := rfl

theorem served_succ_self {σ : Schedule ι} {t : ℕ} {i : ι} (h : σ t = some i) :
    σ.served (t + 1) i = σ.served t i + 1 := by
  rw [served_succ, if_pos h]

theorem served_succ_other {σ : Schedule ι} {t : ℕ} {i : ι} (h : σ t ≠ some i) :
    σ.served (t + 1) i = σ.served t i := by
  rw [served_succ, if_neg h, Nat.add_zero]

theorem served_le_succ (σ : Schedule ι) (t : ℕ) (i : ι) :
    σ.served t i ≤ σ.served (t + 1) i := by
  rw [served_succ]; exact Nat.le_add_right _ _

theorem served_mono (σ : Schedule ι) (i : ι) : Monotone fun t => σ.served t i :=
  monotone_nat_of_le_succ fun t => σ.served_le_succ t i

theorem served_le_served {σ : Schedule ι} {s t : ℕ} (i : ι) (h : s ≤ t) :
    σ.served s i ≤ σ.served t i :=
  σ.served_mono i h

/-- A job gets at most one unit per unit of time. -/
theorem served_le_add (σ : Schedule ι) (s d : ℕ) (i : ι) :
    σ.served (s + d) i ≤ σ.served s i + d := by
  induction d with
  | zero => exact Nat.le_refl _
  | succ d ih =>
      have h : σ.served (s + (d + 1)) i ≤ σ.served (s + d) i + 1 := by
        rw [← Nat.add_assoc, served_succ]
        split <;> omega
      omega

/-- No job has more units than there were. -/
theorem served_le (σ : Schedule ι) (t : ℕ) (i : ι) : σ.served t i ≤ t := by
  simpa using σ.served_le_add 0 t i

/-- A job that has the processor throughout `[s, s + d)` gets `d` units there. -/
theorem served_add_of_run {σ : Schedule ι} {s d : ℕ} {i : ι}
    (h : ∀ u, s ≤ u → u < s + d → σ u = some i) :
    σ.served (s + d) i = σ.served s i + d := by
  induction d with
  | zero => rfl
  | succ d ih =>
      rw [← Nat.add_assoc, served_succ_self (h (s + d) (by omega) (by omega)),
        ih (fun u hu hlt => h u hu (by omega))]
      omega

/-- A job that does not have the processor in `[s, t)` gets nothing there. -/
theorem served_eq_of_not_run {σ : Schedule ι} {s t : ℕ} {i : ι} (hst : s ≤ t)
    (h : ∀ u, s ≤ u → u < t → σ u ≠ some i) : σ.served t i = σ.served s i := by
  obtain ⟨d, rfl⟩ := Nat.exists_eq_add_of_le hst
  induction d with
  | zero => rfl
  | succ d ih =>
      rw [← Nat.add_assoc, served_succ_other (h (s + d) (by omega) (by omega))]
      exact ih (by omega) (fun u hu hlt => h u hu (by omega))

/-- The last time before `t` at which the processor changed to a job. -/
def lastStart (σ : Schedule ι) : ℕ → ℕ
  | 0 => 0
  | t + 1 => if σ t ≠ none ∧ σ t ≠ σ.prev t then t else σ.lastStart t

theorem lastStart_succ (σ : Schedule ι) (t : ℕ) :
    σ.lastStart (t + 1) =
      if σ t ≠ none ∧ σ t ≠ σ.prev t then t else σ.lastStart t := rfl

/-- A job put on the processor at `s` and kept there until `t` has `s` as the
    last start. -/
theorem lastStart_of_run {σ : Schedule ι} {s t : ℕ} {i : ι} (hs : σ.Starts s i)
    (hst : s < t) (hrun : ∀ u, s ≤ u → u < t → σ u = some i) : σ.lastStart t = s := by
  obtain ⟨d, rfl⟩ := Nat.exists_eq_add_of_lt hst
  induction d with
  | zero =>
      have hne : σ s ≠ none ∧ σ s ≠ σ.prev s := by
        refine ⟨by simp [hs.1], ?_⟩
        rw [hs.1]
        exact hs.2.symm
      rw [Nat.add_zero, lastStart_succ, if_pos hne]
  | succ d ih =>
      have hlast := hrun (s + d + 1) (by omega) (by omega)
      have hbefore := hrun (s + d) (by omega) (by omega)
      have hsame : ¬ (σ (s + d + 1) ≠ none ∧ σ (s + d + 1) ≠ σ.prev (s + d + 1)) := by
        rw [prev_succ, hlast, hbefore]
        simp
      rw [show s + (d + 1) + 1 = (s + d + 1) + 1 by omega, lastStart_succ, if_neg hsame]
      exact ih (by omega) (fun u hu hlt => hrun u hu (by omega))

/-- While a job has the processor, `lastStart` is when it was put there. -/
theorem starts_lastStart {σ : Schedule ι} {t : ℕ} {i : ι} (h : σ.prev t = some i) :
    σ.lastStart t < t ∧ σ.Starts (σ.lastStart t) i ∧
      ∀ u, σ.lastStart t ≤ u → u < t → σ u = some i := by
  induction t with
  | zero => simp at h
  | succ t ih =>
      rw [prev_succ] at h
      by_cases hp : σ.prev t = some i
      · obtain ⟨hlt, hstart, hrun⟩ := ih hp
        have hsame : ¬ (σ t ≠ none ∧ σ t ≠ σ.prev t) := by rw [h, hp]; simp
        rw [lastStart_succ, if_neg hsame]
        refine ⟨by omega, hstart, fun u hu hlt' => ?_⟩
        rcases Nat.lt_or_ge u t with hut | hut
        · exact hrun u hu hut
        · obtain rfl : u = t := by omega
          exact h
      · have hnew : σ t ≠ none ∧ σ t ≠ σ.prev t := by
          rw [h]
          exact ⟨by simp, fun he => hp he.symm⟩
        rw [lastStart_succ, if_pos hnew]
        refine ⟨Nat.lt_succ_self t, ⟨h, hp⟩, fun u hu hlt => ?_⟩
        obtain rfl : u = t := by omega
        exact h

end Schedule

namespace Jobs

variable {ι : Type} [DecidableEq ι] (J : Jobs ι) {σ : Schedule ι}

/-- Job `i` may be run at time `t`: it is released and not finished. -/
structure Eligible (σ : Schedule ι) (t : ℕ) (i : ι) : Prop where
  mem : i ∈ J.jobs
  released : J.release i ≤ t
  unfinished : σ.served t i < J.length i

instance (σ : Schedule ι) (t : ℕ) (i : ι) : Decidable (J.Eligible σ t i) :=
  decidable_of_iff (i ∈ J.jobs ∧ J.release i ≤ t ∧ σ.served t i < J.length i)
    ⟨fun ⟨h₁, h₂, h₃⟩ => ⟨h₁, h₂, h₃⟩, fun h => ⟨h.1, h.2, h.3⟩⟩

/-- Only eligible jobs are run. -/
def Legal (σ : Schedule ι) : Prop := ∀ t i, σ t = some i → J.Eligible σ t i

/-- The processor never idles while some job is eligible. -/
def Busy (σ : Schedule ι) : Prop := ∀ t i, J.Eligible σ t i → σ t ≠ none

/-- All jobs have had all their units before `t`. -/
def Finished (σ : Schedule ι) (t : ℕ) : Prop := ∀ i ∈ J.jobs, J.length i ≤ σ.served t i

instance (σ : Schedule ι) (t : ℕ) : Decidable (J.Finished σ t) :=
  inferInstanceAs (Decidable (∀ i ∈ J.jobs, J.length i ≤ σ.served t i))

/-- Units given to all jobs before `t`. -/
def progress (σ : Schedule ι) (t : ℕ) : ℕ := ∑ i ∈ J.jobs, σ.served t i

/-- Work released up to and including time `t`. -/
def arrived (t : ℕ) : ℕ := ∑ i ∈ J.jobs with J.release i ≤ t, J.length i

/-- All the work there is. -/
def total : ℕ := ∑ i ∈ J.jobs, J.length i

variable {J}

/-- A job eligible at two times is eligible in between. -/
theorem Eligible.between {s t u : ℕ} {i : ι} (hs : J.Eligible σ s i) (ht : J.Eligible σ t i)
    (hsu : s ≤ u) (hut : u ≤ t) : J.Eligible σ u i :=
  ⟨hs.mem, hs.released.trans hsu,
    lt_of_le_of_lt (Schedule.served_le_served i hut) ht.unfinished⟩

section Legal

variable (hL : J.Legal σ)
include hL

/-- Nothing is served before its release. -/
theorem Legal.served_eq_zero {t : ℕ} {i : ι} (h : t ≤ J.release i) : σ.served t i = 0 := by
  rw [Schedule.served_eq_of_not_run (Nat.zero_le t), Schedule.served_zero]
  intro u _ hut hrun
  have := (hL u i hrun).released
  omega

/-- No job gets more than its length. -/
theorem Legal.served_le {i : ι} (t : ℕ) : σ.served t i ≤ J.length i := by
  induction t with
  | zero => exact Nat.zero_le _
  | succ t ih =>
      by_cases h : σ t = some i
      · rw [Schedule.served_succ_self h]
        exact (hL t i h).unfinished
      · rw [Schedule.served_succ_other h]
        exact ih

/-- A finished job is not run again. -/
theorem Legal.not_run {t : ℕ} {i : ι} (h : J.length i ≤ σ.served t i) : σ t ≠ some i := by
  intro hrun
  have := (hL t i hrun).unfinished
  omega

/-- Every unit of a legal schedule is progress. -/
theorem Legal.progress_succ (t : ℕ) :
    J.progress σ (t + 1) = J.progress σ t + if σ t = none then 0 else 1 := by
  cases hrun : σ t with
  | none => simp [progress, Schedule.served_succ, hrun]
  | some i =>
      have hi : i ∈ J.jobs := (hL t i hrun).mem
      have hone : ∑ j ∈ J.jobs, (if some i = some j then 1 else 0) = 1 := by
        simp only [Option.some.injEq, Finset.sum_ite_eq, if_pos hi]
      simp only [progress, Schedule.served_succ, hrun, Finset.sum_add_distrib, hone,
        reduceCtorEq, if_false]

/-- The progress is made on released jobs. -/
theorem Legal.progress_eq_sum_released (t : ℕ) :
    J.progress σ t = ∑ i ∈ J.jobs with J.release i ≤ t, σ.served t i := by
  rw [progress, Finset.sum_filter]
  apply Finset.sum_congr rfl
  intro i _
  split
  · rfl
  · next h => exact hL.served_eq_zero (by omega)

/-- Work is left over exactly when a job is eligible. -/
theorem Legal.progress_lt_arrived_iff (t : ℕ) :
    J.progress σ t < J.arrived t ↔ ∃ i, J.Eligible σ t i := by
  rw [hL.progress_eq_sum_released, arrived]
  constructor
  · intro hlt
    obtain ⟨i, hi, hlt⟩ := Finset.exists_lt_of_sum_lt hlt
    rw [Finset.mem_filter] at hi
    exact ⟨i, hi.1, hi.2, hlt⟩
  · rintro ⟨i, hi⟩
    exact Finset.sum_lt_sum (fun i _ => hL.served_le t)
      ⟨i, Finset.mem_filter.mpr ⟨hi.mem, hi.released⟩, hi.unfinished⟩

theorem Legal.finished_iff (t : ℕ) : J.Finished σ t ↔ J.progress σ t = J.total := by
  have hle : ∀ i ∈ J.jobs, σ.served t i ≤ J.length i := fun i _ => hL.served_le t
  rw [progress, total, Finset.sum_eq_sum_iff_of_le hle]
  exact ⟨fun h i hi => Nat.le_antisymm (hle i hi) (h i hi), fun h i hi => (h i hi).ge⟩

end Legal

/-! ## Contention -/

/-- Two jobs are never eligible together under a busy schedule exactly when, run
    without interruption from their release, no two of them would overlap. -/
theorem eligible_unique_iff (hL : J.Legal σ) (hB : J.Busy σ)
    (hpos : ∀ i ∈ J.jobs, 0 < J.length i) :
    (∀ t i j, J.Eligible σ t i → J.Eligible σ t j → i = j) ↔
      ∀ i ∈ J.jobs, ∀ j ∈ J.jobs, i ≠ j →
        J.release i + J.length i ≤ J.release j ∨ J.release j + J.length j ≤ J.release i := by
  constructor
  · intro hone i hi j hj hij
    by_contra hover
    push Not at hover
    -- at the later of the two releases both are unfinished
    have hlate : ∀ a ∈ J.jobs, ∀ b ∈ J.jobs, J.release a ≤ J.release b →
        J.release b < J.release a + J.length a →
          J.Eligible σ (J.release b) a ∧ J.Eligible σ (J.release b) b := by
      intro a ha b hb hab hlt
      have hserved := σ.served_le_add (J.release a) (J.release b - J.release a) a
      rw [hL.served_eq_zero (Nat.le_refl _), Nat.add_sub_cancel' hab] at hserved
      refine ⟨⟨ha, hab, by omega⟩, hb, Nat.le_refl _, ?_⟩
      rw [hL.served_eq_zero (Nat.le_refl _)]
      exact hpos b hb
    rcases Nat.le_total (J.release i) (J.release j) with hle | hle
    · obtain ⟨h₁, h₂⟩ := hlate i hi j hj hle hover.1
      exact hij (hone _ i j h₁ h₂)
    · obtain ⟨h₁, h₂⟩ := hlate j hj i hi hle hover.2
      exact hij (hone _ i j h₂ h₁)
  · intro hdisj t
    induction t using Nat.strongRecOn with
    | ind t ih =>
        -- with nobody else eligible before `t`, a job runs through from its release
        have hthrough : ∀ a b, J.Eligible σ t a → J.Eligible σ t b →
            ¬ J.release a + J.length a ≤ J.release b := by
          intro a b ha hb hle
          have hb' := hb.released
          have hrun : ∀ u, J.release a ≤ u → u < J.release a + J.length a → σ u = some a := by
            intro u hu hlt
            have hel : J.Eligible σ u a :=
              ⟨ha.mem, hu, lt_of_le_of_lt (Schedule.served_le_served a (by omega)) ha.unfinished⟩
            cases hrun : σ u with
            | none => exact absurd hrun (hB u a hel)
            | some x => rw [ih u (by omega) x a (hL u x hrun) hel]
          have hend := Schedule.served_add_of_run hrun
          have hmono := Schedule.served_le_served (σ := σ) a (show J.release a + J.length a ≤ t by
            omega)
          have := ha.unfinished
          omega
        intro i j hi hj
        by_contra hij
        rcases hdisj i hi.mem j hj.mem hij with h | h
        · exact hthrough i j hi hj h
        · exact hthrough j i hj hi h

/-! ## Policy-independent progress -/

/-- The work done by time `t` when one unit is done whenever there is work left,
    `A t` being the work that has arrived by time `t`. -/
def drain (A : ℕ → ℕ) : ℕ → ℕ
  | 0 => 0
  | t + 1 => drain A t + if drain A t < A t then 1 else 0

@[simp] theorem drain_zero (A : ℕ → ℕ) : drain A 0 = 0 := rfl

theorem drain_succ (A : ℕ → ℕ) (t : ℕ) :
    drain A (t + 1) = drain A t + if drain A t < A t then 1 else 0 := rfl

/-- Two arrival curves that agree before `t` drain alike until `t`. -/
theorem drain_congr {A B : ℕ → ℕ} {t : ℕ} (h : ∀ u, u < t → A u = B u) :
    drain A t = drain B t := by
  induction t with
  | zero => rfl
  | succ t ih =>
      rw [drain_succ, drain_succ, h t (Nat.lt_succ_self t),
        ih fun u hu => h u (Nat.lt_succ_of_lt hu)]

theorem drain_succ_le {A : ℕ → ℕ} (hA : Monotone A) (t : ℕ) : drain A (t + 1) ≤ A t := by
  induction t with
  | zero =>
      rw [drain_succ, drain_zero]
      split <;> omega
  | succ t ih =>
      have : A t ≤ A (t + 1) := hA (Nat.le_succ t)
      rw [drain_succ]
      split <;> omega

/-- The total progress of a legal busy schedule is that of the arrival curve. -/
theorem progress_eq_drain (hL : J.Legal σ) (hB : J.Busy σ) (t : ℕ) :
    J.progress σ t = drain J.arrived t := by
  induction t with
  | zero => simp [progress]
  | succ t ih =>
      have hiff : σ t = none ↔ ¬ drain J.arrived t < J.arrived t := by
        rw [← ih, hL.progress_lt_arrived_iff]
        constructor
        · rintro hnone ⟨i, hi⟩
          exact hB t i hi hnone
        · intro hno
          cases hrun : σ t with
          | none => rfl
          | some i => exact absurd ⟨i, hL t i hrun⟩ hno
      rw [hL.progress_succ, drain_succ, ih]
      by_cases h : drain J.arrived t < J.arrived t
      · rw [if_pos h, if_neg (by rw [hiff]; exact not_not.mpr h)]
      · rw [if_neg h, if_pos (hiff.mpr h)]

end Jobs
end ProcSched
