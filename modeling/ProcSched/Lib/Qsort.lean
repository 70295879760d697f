/-
  ProcSched.Lib.Qsort

  `qsort` as its specification: it sees the elements of the array only through
  the comparator, so what it computes is an order of the positions.  The order
  is a permutation, sorted whenever the comparator is consistent; nothing else
  is promised, in particular not stability, which is the extra property
  `Qsort.Stable`.

  Two sorted lists that agree on every key are equal (`eq_of_filter_key`),
  which makes the result of a stable sort unique.  A comparator that has the
  sign of a difference of keys (`SignsKey`) is what `qsort` asks for.
-/

import Mathlib.Data.List.Sort
import Mathlib.Data.List.GetD

namespace ProcSched

/-- The comparator is consistent on the positions below `n`. -/
structure ConsistentBelow (n : ℕ) (c : ℕ → ℕ → ℤ) : Prop where
  total : ∀ i < n, ∀ j < n, c i j ≤ 0 ∨ c j i ≤ 0
  trans : ∀ i < n, ∀ j < n, ∀ k < n, c i j ≤ 0 → c j k ≤ 0 → c i k ≤ 0

/-- An implementation of `qsort`: the order in which it leaves the positions of
    an array of `n` elements that compare as `c` says. -/
structure Qsort where
  order : (n : ℕ) → (ℕ → ℕ → ℤ) → List ℕ
  perm : ∀ n c, (order n c).Perm (List.range n)
  sorted : ∀ n c, ConsistentBelow n c → (order n c).Pairwise fun i j => c i j ≤ 0

namespace Qsort

variable {α : Type} [Inhabited α]

/-- Elements that compare equal keep their order. -/
def Stable (q : Qsort) : Prop :=
  ∀ n c, ConsistentBelow n c → (q.order n c).Pairwise fun i j => c j i ≤ 0 → i < j

/-- The array after `qsort(l, ..., cmp)`. -/
def sort (q : Qsort) (cmp : α → α → ℤ) (l : List α) : List α :=
  (q.order l.length fun i j => cmp (l.getD i default) (l.getD j default)).map
    fun i => l.getD i default

theorem range_map_getD (l : List α) :
    (List.range l.length).map (fun i => l.getD i default) = l := by
  apply List.ext_getElem
  · simp
  · intro i h₁ h₂
    rw [List.getElem_map, List.getElem_range, List.getD_eq_getElem _ _ h₂]

theorem sort_perm (q : Qsort) (cmp : α → α → ℤ) (l : List α) : (q.sort cmp l).Perm l := by
  have h := (q.perm l.length fun i j => cmp (l.getD i default) (l.getD j default)).map
    fun i => l.getD i default
  rwa [range_map_getD] at h

@[simp] theorem length_sort (q : Qsort) (cmp : α → α → ℤ) (l : List α) :
    (q.sort cmp l).length = l.length :=
  (q.sort_perm cmp l).length_eq

theorem lt_of_mem_order {q : Qsort} {n i : ℕ} {c : ℕ → ℕ → ℤ} (h : i ∈ q.order n c) : i < n :=
  List.mem_range.mp ((q.perm n c).mem_iff.mp h)

theorem getD_mem {l : List α} {i : ℕ} (h : i < l.length) : l.getD i default ∈ l := by
  rw [List.getD_eq_getElem _ _ h]
  exact List.getElem_mem h

/-- Arrays that compare alike are reordered alike. -/
theorem sort_congr {β : Type} [Inhabited β] {q : Qsort} {cmp : α → α → ℤ} {cmp' : β → β → ℤ}
    {l : List α} {m : List β} (hlen : l.length = m.length)
    (hcmp : ∀ i j, cmp (l.getD i default) (l.getD j default)
      = cmp' (m.getD i default) (m.getD j default)) :
    ∃ p : List ℕ, p.Perm (List.range l.length) ∧
      q.sort cmp l = p.map (fun i => l.getD i default) ∧
      q.sort cmp' m = p.map fun i => m.getD i default := by
  refine ⟨_, q.perm l.length fun i j => cmp (l.getD i default) (l.getD j default), rfl, ?_⟩
  rw [sort, ← hlen]
  congr 2
  funext i j
  exact (hcmp i j).symm

/-! ## Comparators given by a key -/

/-- On the elements of `l`, `cmp` compares the integers `key`. -/
def ComparesKey (cmp : α → α → ℤ) (key : α → ℤ) (l : List α) : Prop :=
  ∀ a ∈ l, ∀ b ∈ l, cmp a b ≤ 0 ↔ key a ≤ key b

section Key

variable {cmp : α → α → ℤ} {key : α → ℤ} {l : List α}

theorem ComparesKey.consistent (h : ComparesKey cmp key l) :
    ConsistentBelow l.length fun i j => cmp (l.getD i default) (l.getD j default) := by
  constructor
  · intro i hi j hj
    rw [h _ (getD_mem hi) _ (getD_mem hj), h _ (getD_mem hj) _ (getD_mem hi)]
    exact le_total _ _
  · intro i hi j hj k hk
    rw [h _ (getD_mem hi) _ (getD_mem hj), h _ (getD_mem hj) _ (getD_mem hk),
      h _ (getD_mem hi) _ (getD_mem hk)]
    exact le_trans

/-- The sorted array is in key order. -/
theorem sort_sorted (q : Qsort) (h : ComparesKey cmp key l) :
    (q.sort cmp l).Pairwise fun a b => key a ≤ key b := by
  rw [sort, List.pairwise_map]
  refine (q.sorted _ _ h.consistent).imp_of_mem fun hi hj hle => ?_
  exact (h _ (getD_mem (lt_of_mem_order hi)) _ (getD_mem (lt_of_mem_order hj))).mp hle

/-- A stable sort keeps the elements of one key as they were. -/
theorem Stable.filter_key {q : Qsort} (hq : q.Stable) (h : ComparesKey cmp key l) (v : ℤ) :
    (q.sort cmp l).filter (fun a => key a = v) = l.filter fun a => key a = v := by
  set c := fun i j => cmp (l.getD i default) (l.getD j default) with hc
  set p : ℕ → Bool := fun i => key (l.getD i default) = v with hp
  -- the positions of key `v` come out increasing, and there is one such list
  have hincr : ((q.order l.length c).filter p).Pairwise (· < ·) := by
    refine ((hq _ _ h.consistent).filter p).imp_of_mem fun {i j} hi hj hlt => hlt ?_
    obtain ⟨hi, hpi⟩ := List.mem_filter.mp hi
    obtain ⟨hj, hpj⟩ := List.mem_filter.mp hj
    simp only [hp, decide_eq_true_eq] at hpi hpj
    rw [h _ (getD_mem (lt_of_mem_order hj)) _ (getD_mem (lt_of_mem_order hi)), hpi, hpj]
  have hpos : (q.order l.length c).filter p = (List.range l.length).filter p :=
    ((q.perm _ _).filter p).eq_of_pairwise' hincr (List.pairwise_lt_range.filter p)
  have hmap : ∀ m : List ℕ, (m.map fun i => l.getD i default).filter (fun a => key a = v)
      = (m.filter p).map fun i => l.getD i default := fun m => by
    rw [List.filter_map]
    rfl
  rw [sort, hmap, hpos, ← hmap, range_map_getD]

end Key

/-- Two lists in key order with the same elements of every key, in the same
    order, are equal. -/
theorem eq_of_filter_key {α : Type} {key : α → ℤ} {l m : List α}
    (hl : l.Pairwise fun a b => key a ≤ key b) (hm : m.Pairwise fun a b => key a ≤ key b)
    (h : ∀ v, l.filter (fun a => key a = v) = m.filter fun a => key a = v) : l = m := by
  induction l generalizing m with
  | nil =>
      cases m with
      | nil => rfl
      | cons b m =>
          have := h (key b)
          simp at this
  | cons a l ih =>
      have ha : a ∈ m := by
        have hmem : a ∈ (a :: l).filter fun x => key x = key a := by simp
        rw [h] at hmem
        exact (List.mem_filter.mp hmem).1
      cases m with
      | nil => simp at ha
      | cons b m =>
          have hb : b ∈ a :: l := by
            have hmem : b ∈ (b :: m).filter fun x => key x = key b := by simp
            rw [← h] at hmem
            exact (List.mem_filter.mp hmem).1
          obtain ⟨hal, hl'⟩ := List.pairwise_cons.mp hl
          obtain ⟨hbm, hm'⟩ := List.pairwise_cons.mp hm
          have hkey : key a = key b := by
            have h₁ : key a ≤ key b := by
              rcases List.mem_cons.mp hb with rfl | hb
              · exact le_refl _
              · exact hal b hb
            have h₂ : key b ≤ key a := by
              rcases List.mem_cons.mp ha with rfl | ha
              · exact le_refl _
              · exact hbm a ha
            omega
          -- heads of the lists of key `key a`
          have hhead := h (key a)
          simp only [List.filter_cons, decide_true, if_true, hkey] at hhead
          obtain ⟨hab, -⟩ := List.cons.inj hhead
          subst hab
          congr 1
          apply ih hl' hm'
          intro v
          have hv := h v
          simp only [List.filter_cons] at hv
          split at hv
          · exact (List.cons.inj hv).2
          · exact hv

/-! ## Valid comparators -/

section Valid

variable {β : Type} {cmp : β → β → ℤ} {key : β → ℤ} {l m : List β}

/-- What `qsort` asks of a comparator: on the elements of `l` an exchange of the
    arguments turns the sign round, and the order is transitive. -/
structure ValidOn (cmp : β → β → ℤ) (l : List β) : Prop where
  antisymm : ∀ a ∈ l, ∀ b ∈ l, (cmp a b).sign = -(cmp b a).sign
  trans : ∀ a ∈ l, ∀ b ∈ l, ∀ c ∈ l, cmp a b ≤ 0 → cmp b c ≤ 0 → cmp a c ≤ 0

/-- On the elements of `l`, `cmp` has the sign of the difference of the keys. -/
def SignsKey (cmp : β → β → ℤ) (key : β → ℤ) (l : List β) : Prop :=
  ∀ a ∈ l, ∀ b ∈ l, (cmp a b).sign = (key a - key b).sign

theorem SignsKey.comparesKey (h : SignsKey cmp key l) : ComparesKey cmp key l := by
  intro a ha b hb
  rw [← Int.sign_nonpos_iff, h a ha b hb, Int.sign_nonpos_iff]
  omega

theorem SignsKey.validOn (h : SignsKey cmp key l) : ValidOn cmp l where
  antisymm a ha b hb := by
    rw [h a ha b hb, h b hb a ha, ← Int.sign_neg, Int.neg_sub]
  trans a ha b hb c hc := by
    rw [h.comparesKey a ha b hb, h.comparesKey b hb c hc, h.comparesKey a ha c hc]
    exact le_trans

/-- Two permutations of one list that are in key order show the same keys. -/
theorem map_key_eq_of_perm (hp : l.Perm m) (hl : l.Pairwise fun a b => key a ≤ key b)
    (hm : m.Pairwise fun a b => key a ≤ key b) : l.map key = m.map key :=
  List.Perm.eq_of_pairwise (fun _ _ _ _ => le_antisymm) (List.pairwise_map.mpr hl)
    (List.pairwise_map.mpr hm) (hp.map key)

end Valid

/-! ## An implementation -/

/-- Positions by comparator, equal ones by position; out of range last. -/
def before (n : ℕ) (c : ℕ → ℕ → ℤ) (i j : ℕ) : Prop :=
  n ≤ j ∨ i < n ∧ c i j ≤ 0 ∧ (c j i ≤ 0 → i ≤ j)

instance (n : ℕ) (c : ℕ → ℕ → ℤ) : DecidableRel (before n c) := fun i j =>
  inferInstanceAs (Decidable (n ≤ j ∨ i < n ∧ c i j ≤ 0 ∧ (c j i ≤ 0 → i ≤ j)))

theorem pairwise_before {n : ℕ} {c : ℕ → ℕ → ℤ} (h : ConsistentBelow n c) (l : List ℕ) :
    (l.insertionSort (before n c)).Pairwise (before n c) := by
  have htotal : Std.Total (before n c) := ⟨fun i j => by
    by_cases hj : n ≤ j
    · exact Or.inl (Or.inl hj)
    by_cases hi : n ≤ i
    · exact Or.inr (Or.inl hi)
    have hij := h.total i (by omega) j (by omega)
    simp only [before]
    omega⟩
  have htrans : IsTrans ℕ (before n c) := ⟨fun i j k hij hjk => by
    by_cases hk : n ≤ k
    · exact Or.inl hk
    rcases hjk with hk' | ⟨hj, hjk, hjk'⟩
    · exact Or.inl hk'
    rcases hij with hj' | ⟨hi, hij, hij'⟩
    · omega
    refine Or.inr ⟨hi, h.trans i hi j hj k (by omega) hij hjk, fun hki => ?_⟩
    have hji := hij' (h.trans j hj k (by omega) i hi hjk hki)
    have hkj := hjk' (h.trans k (by omega) i hi j hj hki hij)
    omega⟩
  exact List.pairwise_insertionSort _ _

/-- Insertion sort as a `qsort`. -/
def insertion : Qsort where
  order n c := (List.range n).insertionSort (before n c)
  perm n c := List.perm_insertionSort _ _
  sorted n c h := by
    refine (pairwise_before h _).imp_of_mem fun _ hj hb => ?_
    have hj' := List.mem_range.mp ((List.perm_insertionSort _ _).mem_iff.mp hj)
    rcases hb with hb | ⟨-, hb, -⟩
    · omega
    · exact hb

theorem insertion_stable : insertion.Stable := by
  intro n c h
  have hnodup : ((List.range n).insertionSort (before n c)).Pairwise (· ≠ ·) :=
    (List.perm_insertionSort _ _).nodup_iff.mpr List.nodup_range
  refine ((pairwise_before h _).and hnodup).imp_of_mem fun {i j} hi hj hb hji => ?_
  have hj' := lt_of_mem_order (q := insertion) hj
  obtain ⟨hb | ⟨-, -, hb⟩, hne⟩ := hb
  · omega
  · have := hb hji
    omega

end Qsort
end ProcSched
