/-
  ProcSched.Lib.Srpt

  Optimality of shortest-remaining-first schedules.

  `pending σ t i` is the work of job `i` that is released and still to be done
  at time `t`.  Job vectors are compared by `Dominates`: `f` dominates `g` when
  for every set `S` of jobs there is a set no larger outside which `f` has at
  most the work `g` has outside `S`.  Serving a shortest pending job keeps the
  pending work of a schedule dominating that of any other legal schedule
  (`ShortestFirst.dominates`): one unit of service and a batch of arrivals
  preserve the relation.  With `S` the unfinished jobs of the other schedule
  this bounds the number of unfinished jobs at every time, and summing over
  time it bounds the sum of the completion times.
-/

import ProcSched.Lib.Schedule
import Mathlib.Algebra.BigOperators.Ring.Finset
import Mathlib.Algebra.Order.BigOperators.Ring.Finset

namespace ProcSched

namespace Jobs

open Finset

variable {ι : Type} [DecidableEq ι] {J : Jobs ι} {σ τ : Schedule ι}

/-- Outside some set no larger than `S`, `f` has at most the work that `g` has
    outside `S`, whatever `S`. -/
def Dominates (J : Jobs ι) (f g : ι → ℕ) : Prop :=
  ∀ S ⊆ J.jobs, ∃ S' ⊆ J.jobs, S'.card ≤ S.card ∧ ∑ i ∈ J.jobs \ S', f i ≤ ∑ i ∈ J.jobs \ S, g i

theorem Dominates.refl (f : ι → ℕ) : J.Dominates f f := fun S hS => ⟨S, hS, le_refl _, le_refl _⟩

/-- Only the entries of the jobs matter. -/
theorem Dominates.congr {f g f' g' : ι → ℕ} (h : J.Dominates f g)
    (hf : ∀ i ∈ J.jobs, f' i = f i) (hg : ∀ i ∈ J.jobs, g' i = g i) : J.Dominates f' g' := by
  intro S hS
  obtain ⟨S', hS', hcard, hsum⟩ := h S hS
  refine ⟨S', hS', hcard, ?_⟩
  rw [sum_congr rfl fun i hi => hf i (mem_sdiff.mp hi).1,
    sum_congr rfl fun i hi => hg i (mem_sdiff.mp hi).1]
  exact hsum

/-! ## Arrivals -/

/-- A batch of arrivals, new to both sides, keeps the relation. -/
theorem Dominates.arrive {f g x : ι → ℕ} {A : Finset ι} (h : J.Dominates f g)
    (hA : A ⊆ J.jobs) (hg : ∀ i ∈ A, g i = 0) :
    J.Dominates (fun i => f i + if i ∈ A then x i else 0)
      (fun i => g i + if i ∈ A then x i else 0) := by
  intro S hS
  obtain ⟨S₀, hS₀, hcard, hsum⟩ := h (S \ A) (sdiff_subset.trans hS)
  refine ⟨S₀ ∪ (S ∩ A), union_subset hS₀ (inter_subset_right.trans hA), ?_, ?_⟩
  · calc (S₀ ∪ (S ∩ A)).card ≤ S₀.card + (S ∩ A).card := card_union_le _ _
      _ ≤ (S \ A).card + (S ∩ A).card := by omega
      _ = S.card := card_sdiff_add_card_inter S A
  · rw [sum_add_distrib, sum_add_distrib]
    -- old work: adding the arrivals back to `S` does not change what is outside
    have hold : ∑ i ∈ J.jobs \ (S₀ ∪ (S ∩ A)), f i ≤ ∑ i ∈ J.jobs \ S, g i := by
      calc ∑ i ∈ J.jobs \ (S₀ ∪ (S ∩ A)), f i
          ≤ ∑ i ∈ J.jobs \ S₀, f i :=
            sum_le_sum_of_subset (sdiff_subset_sdiff (Subset.refl _) subset_union_left)
        _ ≤ ∑ i ∈ J.jobs \ (S \ A), g i := hsum
        _ = ∑ i ∈ J.jobs \ S, g i := by
            refine (sum_subset (sdiff_subset_sdiff (Subset.refl _) sdiff_subset) ?_).symm
            intro i hi hiS
            simp only [mem_sdiff, not_and, not_not] at hi hiS
            exact hg i (hi.2 (hiS hi.1))
    -- new work: outside the larger set there are fewer arrivals
    have hnew : ∑ i ∈ J.jobs \ (S₀ ∪ (S ∩ A)), (if i ∈ A then x i else 0)
        ≤ ∑ i ∈ J.jobs \ S, if i ∈ A then x i else 0 := by
      rw [← sum_filter, ← sum_filter]
      apply sum_le_sum_of_subset
      intro i hi
      simp only [mem_filter, mem_sdiff, mem_union, mem_inter, not_or, not_and] at hi ⊢
      exact ⟨⟨hi.1.1, fun hiS => hi.1.2.2 hiS hi.2⟩, hi.2⟩
    exact Nat.add_le_add hold hnew

/-! ## One unit of service -/

/-- `g` loses at most one unit. -/
theorem sum_le_sum_add_one {g g' : ι → ℕ} {o : Option ι}
    (hg : ∀ i, g i ≤ g' i + if o = some i then 1 else 0) (T : Finset ι) :
    ∑ i ∈ T, g i ≤ ∑ i ∈ T, g' i + 1 := by
  calc ∑ i ∈ T, g i ≤ ∑ i ∈ T, (g' i + if o = some i then 1 else 0) := sum_le_sum fun i _ => hg i
    _ = ∑ i ∈ T, g' i + ∑ i ∈ T, if o = some i then 1 else 0 := sum_add_distrib
    _ ≤ ∑ i ∈ T, g' i + 1 := by
      refine Nat.add_le_add_left ?_ _
      cases o with
      | none => simp
      | some j =>
          simp only [Option.some.injEq, sum_ite_eq]
          split <;> omega

/-- Serving a smallest positive entry keeps the relation, whatever unit the
    other side loses. -/
theorem Dominates.serve {f g f' g' : ι → ℕ} {i : ι} {o : Option ι} (h : J.Dominates f g)
    (hi : i ∈ J.jobs) (hpos : 0 < f i) (hmin : ∀ j ∈ J.jobs, 0 < f j → f i ≤ f j)
    (hf : ∀ j, f' j = if j = i then f j - 1 else f j)
    (hg : ∀ j, g j ≤ g' j + if o = some j then 1 else 0) : J.Dominates f' g' := by
  intro S hS
  obtain ⟨S', hS', hcard, hsum⟩ := h S hS
  have hle : ∀ j, f' j ≤ f j := fun j => by rw [hf]; split <;> omega
  have hg' := sum_le_sum_add_one hg (J.jobs \ S)
  rcases Nat.eq_zero_or_pos (∑ j ∈ J.jobs \ S', f j) with hzero | hwork
  · -- nothing is left outside `S'`
    refine ⟨S', hS', hcard, ?_⟩
    have : ∑ j ∈ J.jobs \ S', f' j ≤ ∑ j ∈ J.jobs \ S', f j := sum_le_sum fun j _ => hle j
    omega
  · by_cases hiS : i ∈ S'
    · -- exchange `i` for a job `l` outside `S'` with at least as much left
      obtain ⟨l, hl, hlpos⟩ : ∃ l ∈ J.jobs \ S', 0 < f l := by
        by_contra hno
        push Not at hno
        have : ∑ j ∈ J.jobs \ S', f j = 0 := sum_eq_zero fun j hj => by have := hno j hj; omega
        omega
      have hlJ := (mem_sdiff.mp hl).1
      have hlS := (mem_sdiff.mp hl).2
      have hil : i ≠ l := fun he => hlS (he ▸ hiS)
      refine ⟨insert l (S'.erase i), ?_, ?_, ?_⟩
      · exact insert_subset hlJ ((erase_subset _ _).trans hS')
      · rw [card_insert_of_notMem (fun hm => hlS (mem_of_mem_erase hm)), card_erase_of_mem hiS]
        have := card_pos.mpr ⟨i, hiS⟩
        omega
      · have hset : J.jobs \ insert l (S'.erase i) = insert i ((J.jobs \ S').erase l) := by
          ext j
          simp only [mem_sdiff, mem_insert, mem_erase, not_or, not_and]
          constructor
          · rintro ⟨hj, hjl, hjS⟩
            by_cases hji : j = i
            · exact Or.inl hji
            · exact Or.inr ⟨hjl, hj, fun hjS' => hjS hji hjS'⟩
          · rintro (rfl | ⟨hjl, hj, hjS⟩)
            · exact ⟨hi, hil, fun hne => absurd rfl hne⟩
            · exact ⟨hj, hjl, fun _ => hjS⟩
        have hnot : i ∉ (J.jobs \ S').erase l := fun hm => (mem_sdiff.mp (mem_of_mem_erase hm)).2 hiS
        have hrest : ∑ j ∈ (J.jobs \ S').erase l, f' j ≤ ∑ j ∈ (J.jobs \ S').erase l, f j :=
          sum_le_sum fun j _ => hle j
        have hsplit := add_sum_erase (J.jobs \ S') f hl
        have hfi : f' i = f i - 1 := by rw [hf, if_pos rfl]
        have hil' := hmin l hlJ hlpos
        rw [hset, sum_insert hnot, hfi]
        omega
    · -- `i` is outside `S'`, so both sides lose a unit
      have hiT : i ∈ J.jobs \ S' := mem_sdiff.mpr ⟨hi, hiS⟩
      refine ⟨S', hS', hcard, ?_⟩
      have hrest : ∑ j ∈ (J.jobs \ S').erase i, f' j ≤ ∑ j ∈ (J.jobs \ S').erase i, f j :=
        sum_le_sum fun j _ => hle j
      have hsplit := add_sum_erase (J.jobs \ S') f hiT
      have hsplit' := add_sum_erase (J.jobs \ S') f' hiT
      have hfi : f' i = f i - 1 := by rw [hf, if_pos rfl]
      omega

/-- With nothing pending on the left the relation is trivial. -/
theorem Dominates.of_zero {f g : ι → ℕ} (h : ∀ j ∈ J.jobs, f j = 0) : J.Dominates f g := by
  intro S hS
  refine ⟨S, hS, le_refl _, ?_⟩
  rw [sum_eq_zero fun j hj => h j (mem_sdiff.mp hj).1]
  exact Nat.zero_le _

/-! ## Pending work along a schedule -/

/-- Released work of job `i` still to be done at time `t`. -/
def pending (J : Jobs ι) (σ : Schedule ι) (t : ℕ) (i : ι) : ℕ :=
  if J.release i ≤ t then J.length i - σ.served t i else 0

theorem pending_pos_iff {t : ℕ} {i : ι} (hi : i ∈ J.jobs) :
    0 < J.pending σ t i ↔ J.Eligible σ t i := by
  rw [pending]
  split
  · next h => exact ⟨fun hp => ⟨hi, h, by omega⟩, fun he => by have := he.unfinished; omega⟩
  · next h => exact ⟨fun hp => absurd hp (Nat.lt_irrefl 0), fun he => absurd he.released h⟩

/-- A schedule that always runs a released job with least work left, when
    there is one. -/
structure ShortestFirst (J : Jobs ι) (σ : Schedule ι) : Prop where
  legal : J.Legal σ
  busy : J.Busy σ
  shortest : ∀ t i j, σ t = some i → J.Eligible σ t j →
    J.length i - σ.served t i ≤ J.length j - σ.served t j

/-- The jobs released at time `t`. -/
def arrivals (J : Jobs ι) (t : ℕ) : Finset ι := J.jobs.filter fun i => J.release i = t

/-- Between `t` and `t + 1` the served unit goes and the arrivals come. -/
theorem Legal.pending_succ (hL : J.Legal σ) (t : ℕ) {i : ι} (hi : i ∈ J.jobs) :
    J.pending σ (t + 1) i = (J.pending σ t i - if σ t = some i then 1 else 0) +
      if i ∈ J.arrivals (t + 1) then J.length i else 0 := by
  have hmem : i ∈ J.arrivals (t + 1) ↔ J.release i = t + 1 := by simp [arrivals, hi]
  have hearly : t < J.release i → σ t ≠ some i := fun hlt hrun => by
    have := (hL t i hrun).released
    omega
  rw [pending, pending, Schedule.served_succ]
  rcases lt_trichotomy (J.release i) (t + 1) with hlt | heq | hgt
  · rw [if_pos (show J.release i ≤ t + 1 by omega), if_pos (show J.release i ≤ t by omega),
      if_neg (show i ∉ J.arrivals (t + 1) by rw [hmem]; omega)]
    omega
  · rw [if_pos (show J.release i ≤ t + 1 by omega), if_neg (show ¬ J.release i ≤ t by omega),
      if_pos (hmem.mpr heq), if_neg (hearly (by omega)),
      hL.served_eq_zero (show t ≤ J.release i by omega)]
    omega
  · rw [if_neg (show ¬ J.release i ≤ t + 1 by omega), if_neg (show ¬ J.release i ≤ t by omega),
      if_neg (show i ∉ J.arrivals (t + 1) by rw [hmem]; omega)]
    omega

/-- Nothing is pending for a job before it arrives. -/
theorem pending_arrivals {t : ℕ} {i : ι} (hi : i ∈ J.arrivals (t + 1)) : J.pending σ t i = 0 := by
  have := (mem_filter.mp hi).2
  rw [pending, if_neg (by omega)]

/-- The pending work of a shortest-first schedule dominates that of every legal
    schedule of the same jobs. -/
theorem ShortestFirst.dominates (hσ : J.ShortestFirst σ) (hτ : J.Legal τ) (t : ℕ) :
    J.Dominates (J.pending σ t) (J.pending τ t) := by
  induction t with
  | zero =>
      exact (Dominates.refl _).congr (fun i _ => rfl) fun i _ => by simp [pending]
  | succ t ih =>
      have hserve : J.Dominates (fun i => J.pending σ t i - if σ t = some i then 1 else 0)
          (fun i => J.pending τ t i - if τ t = some i then 1 else 0) := by
        cases hrun : σ t with
        | none =>
            apply Dominates.of_zero
            intro j hj
            rcases Nat.eq_zero_or_pos (J.pending σ t j) with h | h
            · simp [h]
            · exact absurd hrun (hσ.busy t j ((pending_pos_iff hj).mp h))
        | some i =>
            have hel := hσ.legal t i hrun
            refine ih.serve (i := i) (o := τ t) hel.mem ((pending_pos_iff hel.mem).mpr hel) ?_ ?_ ?_
            · intro j hj hpos
              have hj' := (pending_pos_iff hj).mp hpos
              rw [pending, pending, if_pos hel.released, if_pos hj'.released]
              exact hσ.shortest t i j hrun hj'
            · intro j
              by_cases hji : j = i
              · simp [hji]
              · rw [if_neg hji, if_neg (fun he => hji (Option.some.inj he).symm), Nat.sub_zero]
            · intro j
              split <;> omega
      refine (hserve.arrive (A := J.arrivals (t + 1)) (x := J.length) (filter_subset _ _) ?_).congr
        (fun i hi => hσ.legal.pending_succ t hi) (fun i hi => hτ.pending_succ t hi)
      intro i hi
      rw [pending_arrivals hi, Nat.zero_sub]

/-! ## Unfinished jobs and completion times -/

/-- The jobs not finished at time `t`. -/
def unfinished (J : Jobs ι) (σ : Schedule ι) (t : ℕ) : Finset ι :=
  J.jobs.filter fun i => σ.served t i < J.length i

/-- The released ones among them. -/
def waiting (J : Jobs ι) (σ : Schedule ι) (t : ℕ) : Finset ι :=
  J.jobs.filter fun i => J.Eligible σ t i

/-- At every time a shortest-first schedule has at most as many released jobs
    unfinished as any legal schedule. -/
theorem ShortestFirst.card_waiting_le (hσ : J.ShortestFirst σ) (hτ : J.Legal τ) (t : ℕ) :
    (J.waiting σ t).card ≤ (J.waiting τ t).card := by
  obtain ⟨S, -, hcard, hsum⟩ := hσ.dominates hτ t (J.waiting τ t) (filter_subset _ _)
  have hzero : ∑ i ∈ J.jobs \ J.waiting τ t, J.pending τ t i = 0 := by
    apply sum_eq_zero
    intro i hi
    obtain ⟨hJ, hnot⟩ := mem_sdiff.mp hi
    by_contra hne
    exact hnot (mem_filter.mpr ⟨hJ, (pending_pos_iff hJ).mp (Nat.pos_of_ne_zero hne)⟩)
  rw [hzero, Nat.le_zero, sum_eq_zero_iff] at hsum
  refine le_trans (card_le_card fun i hi => ?_) hcard
  obtain ⟨hJ, hel⟩ := mem_filter.mp hi
  by_contra hnot
  have := hsum i (mem_sdiff.mpr ⟨hJ, hnot⟩)
  have := (pending_pos_iff hJ).mpr hel
  omega

/-- Unfinished jobs are the released ones and those still to come. -/
theorem Legal.unfinished_eq (hL : J.Legal σ) (hpos : ∀ i ∈ J.jobs, 0 < J.length i) (t : ℕ) :
    J.unfinished σ t = J.waiting σ t ∪ J.jobs.filter fun i => t < J.release i := by
  ext i
  simp only [unfinished, waiting, mem_filter, mem_union]
  constructor
  · rintro ⟨hi, hlt⟩
    rcases Nat.lt_or_ge t (J.release i) with h | h
    · exact Or.inr ⟨hi, h⟩
    · exact Or.inl ⟨hi, hi, h, hlt⟩
  · rintro (⟨hi, hel⟩ | ⟨hi, hlt⟩)
    · exact ⟨hi, hel.unfinished⟩
    · exact ⟨hi, by rw [hL.served_eq_zero hlt.le]; exact hpos i hi⟩

theorem Legal.card_unfinished (hL : J.Legal σ) (hpos : ∀ i ∈ J.jobs, 0 < J.length i) (t : ℕ) :
    (J.unfinished σ t).card =
      (J.waiting σ t).card + (J.jobs.filter fun i => t < J.release i).card := by
  rw [hL.unfinished_eq hpos, card_union_of_disjoint]
  apply disjoint_left.mpr
  intro i hi hi'
  have := (mem_filter.mp hi).2.released
  have := (mem_filter.mp hi').2
  omega

/-- At every time a shortest-first schedule has finished at least as many jobs
    as any legal schedule. -/
theorem ShortestFirst.card_unfinished_le (hσ : J.ShortestFirst σ) (hτ : J.Legal τ)
    (hpos : ∀ i ∈ J.jobs, 0 < J.length i) (t : ℕ) :
    (J.unfinished σ t).card ≤ (J.unfinished τ t).card := by
  rw [hσ.legal.card_unfinished hpos, hτ.card_unfinished hpos]
  exact Nat.add_le_add_right (hσ.card_waiting_le hτ t) _

/-- `C` gives the time at which each job has had all its units. -/
def CompletesAt (J : Jobs ι) (σ : Schedule ι) (C : ι → ℕ) : Prop :=
  ∀ i ∈ J.jobs, ∀ t, C i ≤ t ↔ J.length i ≤ σ.served t i

/-- A schedule that gives every job its units has completion times. -/
theorem exists_completesAt (h : ∀ i ∈ J.jobs, ∃ t, J.length i ≤ σ.served t i) :
    ∃ C, J.CompletesAt σ C := by
  classical
  refine ⟨fun i => if hi : ∃ t, J.length i ≤ σ.served t i then Nat.find hi else 0,
    fun i hi t => ?_⟩
  simp only [dif_pos (h i hi)]
  rw [Nat.find_le_iff]
  constructor
  · rintro ⟨u, hu, hle⟩
    exact hle.trans (Schedule.served_le_served i hu)
  · exact fun hle => ⟨t, Nat.le_refl t, hle⟩

/-- The completion times add up to the numbers of unfinished jobs over time. -/
theorem CompletesAt.sum_eq {C : ι → ℕ} (hC : J.CompletesAt σ C) {T : ℕ}
    (hT : ∀ i ∈ J.jobs, C i ≤ T) :
    ∑ i ∈ J.jobs, C i = ∑ t ∈ range T, (J.unfinished σ t).card := by
  have hone : ∀ i ∈ J.jobs, C i = ∑ t ∈ range T, if σ.served t i < J.length i then 1 else 0 := by
    intro i hi
    have hset : (range T).filter (fun t => σ.served t i < J.length i) = range (C i) := by
      ext t
      have h₁ := hC i hi t
      have h₂ := hT i hi
      simp only [mem_filter, mem_range]
      omega
    rw [← card_filter, hset, card_range]
  calc ∑ i ∈ J.jobs, C i
      = ∑ i ∈ J.jobs, ∑ t ∈ range T, (if σ.served t i < J.length i then 1 else 0) :=
        sum_congr rfl hone
    _ = ∑ t ∈ range T, ∑ i ∈ J.jobs, (if σ.served t i < J.length i then 1 else 0) := sum_comm
    _ = ∑ t ∈ range T, (J.unfinished σ t).card :=
        sum_congr rfl fun t _ => by rw [unfinished, card_filter]

/-- A shortest-first schedule has the least sum of completion times. -/
theorem ShortestFirst.sum_completion_le (hσ : J.ShortestFirst σ) (hτ : J.Legal τ)
    (hpos : ∀ i ∈ J.jobs, 0 < J.length i) {C D : ι → ℕ} (hC : J.CompletesAt σ C)
    (hD : J.CompletesAt τ D) : ∑ i ∈ J.jobs, C i ≤ ∑ i ∈ J.jobs, D i := by
  have hCT : ∀ i ∈ J.jobs, C i ≤ J.jobs.sup C + J.jobs.sup D := fun i hi =>
    (le_sup hi).trans (Nat.le_add_right _ _)
  have hDT : ∀ i ∈ J.jobs, D i ≤ J.jobs.sup C + J.jobs.sup D := fun i hi =>
    (le_sup hi).trans (Nat.le_add_left _ _)
  rw [hC.sum_eq hCT, hD.sum_eq hDT]
  exact sum_le_sum fun t _ => hσ.card_unfinished_le hτ hpos t

end Jobs
end ProcSched
