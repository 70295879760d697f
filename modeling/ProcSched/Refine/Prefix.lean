/-
  ProcSched.Refine.Prefix

  Two tables with the same processes ready by time `T`, in the same order, and
  other processes after `T` anywhere in between.  The positions of the common
  processes correspond and keep their order (`exists_common`).
-/

import ProcSched.Refine.Policy

namespace ProcSched

/-- The records of the processes ready by time `T`, in table order. -/
def recordsBy (W : List Process) (T : ℕ) : List Record :=
  (W.filter fun p => p.ready ≤ (T : Int)).map Process.record

/-- The positions of the processes ready by time `T`. -/
def positionsBy (W : List Process) (T : ℕ) : List ℕ :=
  (List.range W.length).filter fun i => (entry W i).ready ≤ T

section Positions

variable {W : List Process} {T : ℕ}

theorem mem_positionsBy {i : ℕ} :
    i ∈ positionsBy W T ↔ i < W.length ∧ (entry W i).ready ≤ T := by
  simp only [positionsBy, List.mem_filter, List.mem_range, decide_eq_true_eq]

theorem positionsBy_sorted (W : List Process) (T : ℕ) : (positionsBy W T).Pairwise (· < ·) :=
  List.pairwise_lt_range.filter _

theorem positionsBy_nodup (W : List Process) (T : ℕ) : (positionsBy W T).Nodup :=
  (positionsBy_sorted W T).imp fun h => Nat.ne_of_lt h

/-- A table is the list of its entries. -/
theorem range_map_entry (W : List Process) : (List.range W.length).map (entry W) = W :=
  Qsort.range_map_getD W

/-- A filter on the entries is a filter on the positions. -/
theorem filter_eq_map_range (W : List Process) (p : Process → Bool) :
    W.filter p = ((List.range W.length).filter fun i => p (entry W i)).map (entry W) := by
  conv_lhs => rw [← range_map_entry W]
  rw [List.filter_map]
  rfl

theorem recordsBy_eq (W : List Process) (T : ℕ) :
    recordsBy W T = (positionsBy W T).map fun i => (entry W i).record := by
  rw [recordsBy, filter_eq_map_range, List.map_map]
  rfl

end Positions

/-! ## Corresponding positions -/

section Common

variable {V W : List Process} {T : ℕ}

/-- `f` carries the positions of `V` ready by time `T` onto those of `W`, in
    order and with their records. -/
structure Common (V W : List Process) (T : ℕ) (f : ℕ → ℕ) : Prop where
  mem : ∀ i ∈ positionsBy V T, f i ∈ positionsBy W T
  record : ∀ i ∈ positionsBy V T, (entry W (f i)).record = (entry V i).record
  mono : ∀ i ∈ positionsBy V T, ∀ j ∈ positionsBy V T, i < j → f i < f j
  surj : ∀ k ∈ positionsBy W T, ∃ i ∈ positionsBy V T, f i = k

theorem exists_common (h : recordsBy V T = recordsBy W T) : ∃ f, Common V W T f := by
  rw [recordsBy_eq, recordsBy_eq] at h
  have hlen : (positionsBy V T).length = (positionsBy W T).length := by
    have := congrArg List.length h
    rwa [List.length_map, List.length_map] at this
  have hrecord : ∀ r (hr : r < (positionsBy V T).length) (hr' : r < (positionsBy W T).length),
      (entry W (positionsBy W T)[r]).record = (entry V (positionsBy V T)[r]).record := by
    intro r hr hr'
    have := List.getElem_of_eq h (i := r) (by rw [List.length_map]; exact hr)
    rw [List.getElem_map, List.getElem_map] at this
    exact this.symm
  -- the `r`-th position of one side goes to the `r`-th of the other
  have hrank : ∀ i ∈ positionsBy V T,
      (positionsBy V T).idxOf i < (positionsBy W T).length := by
    intro i hi
    rw [← hlen]
    exact List.idxOf_lt_length_of_mem hi
  have hf : ∀ i (hi : (positionsBy V T).idxOf i < (positionsBy W T).length),
      (positionsBy W T).getD ((positionsBy V T).idxOf i) 0 =
        (positionsBy W T)[(positionsBy V T).idxOf i] := fun i hi =>
    List.getD_eq_getElem _ _ hi
  refine ⟨fun i => (positionsBy W T).getD ((positionsBy V T).idxOf i) 0, fun i hi => ?_,
    fun i hi => ?_, fun i hi j hj hij => ?_, fun k hk => ?_⟩
  · rw [hf i (hrank i hi)]
    exact List.getElem_mem _
  · rw [hf i (hrank i hi), hrecord _ (List.idxOf_lt_length_of_mem hi), List.getElem_idxOf]
  · rw [hf i (hrank i hi), hf j (hrank j hj)]
    have hlt : (positionsBy V T).idxOf i < (positionsBy V T).idxOf j := by
      by_contra hge
      have hsorted := positionsBy_sorted V T
      rcases Nat.lt_or_eq_of_le (Nat.le_of_not_lt hge) with hlt | heq
      · have := List.pairwise_iff_getElem.mp hsorted _ _ (List.idxOf_lt_length_of_mem hj)
          (List.idxOf_lt_length_of_mem hi) hlt
        rw [List.getElem_idxOf, List.getElem_idxOf] at this
        omega
      · have : i = j := by
          rw [← List.getElem_idxOf (List.idxOf_lt_length_of_mem hi),
            ← List.getElem_idxOf (List.idxOf_lt_length_of_mem hj)]
          simp only [heq]
        omega
    exact List.pairwise_iff_getElem.mp (positionsBy_sorted W T) _ _ _ _ hlt
  · have hk' := List.idxOf_lt_length_of_mem hk
    have hr : (positionsBy W T).idxOf k < (positionsBy V T).length := by rw [hlen]; exact hk'
    refine ⟨(positionsBy V T)[(positionsBy W T).idxOf k], List.getElem_mem hr, ?_⟩
    simp only [(positionsBy_nodup V T).idxOf_getElem]
    rw [List.getD_eq_getElem _ _ hk', List.getElem_idxOf]

namespace Common

variable {f : ℕ → ℕ} (h : Common V W T f)
include h

theorem le_of_le {i j : ℕ} (hi : i ∈ positionsBy V T) (hj : j ∈ positionsBy V T) (hij : i ≤ j) :
    f i ≤ f j := by
  rcases Nat.lt_or_eq_of_le hij with hlt | rfl
  · exact (h.mono i hi j hj hlt).le
  · exact Nat.le_refl _

theorem inj {i j : ℕ} (hi : i ∈ positionsBy V T) (hj : j ∈ positionsBy V T) (heq : f i = f j) :
    i = j := by
  rcases Nat.lt_trichotomy i j with hlt | rfl | hgt
  · have := h.mono i hi j hj hlt
    omega
  · rfl
  · have := h.mono j hj i hi hgt
    omega

end Common

theorem mem_positionsBy_iff {i : ℕ} :
    i ∈ positionsBy V T ↔ i ∈ (jobsOf V).jobs ∧ (jobsOf V).release i ≤ T := by
  rw [mem_positionsBy, mem_jobsOf]
  exact and_congr_right fun _ => Int.toNat_le.symm

/-- The common processes correspond as jobs. -/
theorem Common.matches {f : ℕ → ℕ} (h : Common V W T f) :
    (jobsOf V).Matches (jobsOf W) f T where
  mem i hi hT := (mem_positionsBy_iff.mp (h.mem i (mem_positionsBy_iff.mpr ⟨hi, hT⟩))).1
  release i hi hT := congrArg (fun r : Record => r.ready.toNat)
    (h.record i (mem_positionsBy_iff.mpr ⟨hi, hT⟩))
  length i hi hT := congrArg (fun r : Record => r.exec.toNat)
    (h.record i (mem_positionsBy_iff.mpr ⟨hi, hT⟩))
  surj k hk hT := by
    obtain ⟨i, hi, hik⟩ := h.surj k (mem_positionsBy_iff.mpr ⟨hk, hT⟩)
    obtain ⟨hi, hiT⟩ := mem_positionsBy_iff.mp hi
    exact ⟨i, hi, hiT, hik⟩
  inj i hi hT j hj hT' heq := h.inj (mem_positionsBy_iff.mpr ⟨hi, hT⟩)
    (mem_positionsBy_iff.mpr ⟨hj, hT'⟩) heq

theorem Common.keepsOrder {f : ℕ → ℕ} (h : Common V W T f) : (jobsOf V).KeepsOrder f T :=
  fun _ hi hT _ hj hT' hij => h.le_of_le (mem_positionsBy_iff.mpr ⟨hi, hT⟩)
    (mem_positionsBy_iff.mpr ⟨hj, hT'⟩) hij

end Common

/-! ## The tables the schedulers work on -/

theorem filter_recordsBy (W : List Process) (T : ℕ) (v : Int) :
    (recordsBy W T).filter (fun r => r.ready = v) =
      ((W.filter fun p => p.ready = v).filter fun p => p.ready ≤ (T : Int)).map
        Process.record := by
  rw [recordsBy, List.filter_map, List.filter_filter, List.filter_filter]
  congr 2
  funext p
  exact Bool.and_comm _ _

/-- With a stable sort the tables have the same processes ready by time `T`, in
    the same order, if the workloads have. -/
theorem recordsBy_table {P : Policy} {q : Qsort} {V W : List Process} {T : ℕ} (hq : q.Stable)
    (hV : WellFormed V) (hW : WellFormed W) (h : recordsBy V T = recordsBy W T) :
    recordsBy (P.table q V) T = recordsBy (P.table q W) T := by
  by_cases hP : P = .psjf
  · rw [hP]
    exact h
  · have hsorted : ∀ U, WellFormed U → (recordsBy (P.table q U) T).Pairwise
        fun a b => a.ready ≤ b.ready := fun U hU => by
      rw [recordsBy, List.pairwise_map]
      exact (Policy.table_sorted hU hP).filter _
    apply Qsort.eq_of_filter_key (hsorted V hV) (hsorted W hW)
    intro v
    rw [filter_recordsBy, filter_recordsBy, Policy.table_filter hq hV, Policy.table_filter hq hW,
      ← filter_recordsBy, ← filter_recordsBy, h]

end ProcSched
