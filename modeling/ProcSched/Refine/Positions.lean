/-
  ProcSched.Refine.Positions

  Two tables with the same records in another order: the position in one of each
  entry of the other.  As jobs they correspond at all times, so schedules can be
  carried over from one table to the other.
-/

import ProcSched.Refine.Policy
import Mathlib.Data.List.Perm.Basic

namespace ProcSched

variable {V W : List Process}

/-- The records of the tables are the same up to order. -/
def SameRecords (V W : List Process) : Prop := (V.map Process.record).Perm (W.map Process.record)

theorem SameRecords.symm (h : SameRecords V W) : SameRecords W V := List.Perm.symm h

theorem SameRecords.trans {U : List Process} (h : SameRecords U V) (h' : SameRecords V W) :
    SameRecords U W := List.Perm.trans h h'

theorem SameRecords.of_perm (h : V.Perm W) : SameRecords V W := h.map _

theorem SameRecords.length_eq (h : SameRecords V W) : V.length = W.length := by
  have := List.Perm.length_eq h
  rwa [List.length_map, List.length_map] at this

/-- Whether a workload is well-formed depends on its records only. -/
theorem SameRecords.wellFormed (h : SameRecords W V) (hW : WellFormed W) : WellFormed V := by
  have hmem : ∀ p ∈ V, ∃ p' ∈ W, p'.record = p.record := fun p hp =>
    List.mem_map.mp (h.mem_iff.mpr (List.mem_map_of_mem hp))
  have hready : ∀ {p p' : Process}, p'.record = p.record → p'.ready = p.ready := fun he =>
    congrArg Record.ready he
  have hexec : ∀ {p p' : Process}, p'.record = p.record → p'.exec = p.exec := fun he =>
    congrArg Record.exec he
  have hsum : (V.map Process.exec).sum = (W.map Process.exec).sum := by
    have := (h.map Record.exec).sum_eq
    rw [List.map_map, List.map_map] at this
    exact this.symm
  refine ⟨fun he => hW.nonempty ?_, fun p hp => ?_, fun p hp => ?_, fun p hp => ?_⟩
  · rw [he] at h
    exact List.map_eq_nil_iff.mp h.eq_nil
  · obtain ⟨p', hp', he⟩ := hmem p hp
    rw [← hready he]
    exact hW.ready_nonneg p' hp'
  · obtain ⟨p', hp', he⟩ := hmem p hp
    rw [← hexec he]
    exact hW.exec_pos p' hp'
  · obtain ⟨p', hp', he⟩ := hmem p hp
    rw [← hready he, hsum]
    exact hW.bounded p' hp'

theorem map_record_getElem {i : ℕ} (hi : i < (V.map Process.record).length) :
    (V.map Process.record)[i] = (entry V i).record := by
  rw [List.getElem_map, entry_eq_getElem]

/-- The position in `W` of `V[i]`. -/
def position (h : SameRecords V W) (i : ℕ) : ℕ :=
  if hi : i < (V.map Process.record).length then (List.Perm.idxBij h ⟨i, hi⟩ : ℕ) else i

section

variable (h : SameRecords V W)

theorem position_eq {i : ℕ} (hi : i < V.length) :
    position h i = (List.Perm.idxBij h ⟨i, by rw [List.length_map]; exact hi⟩ : ℕ) :=
  dif_pos _

theorem position_lt {i : ℕ} (hi : i < V.length) : position h i < W.length := by
  rw [position_eq h hi]
  exact lt_of_lt_of_eq (Fin.is_lt _) (List.length_map _)

theorem record_position {i : ℕ} (hi : i < V.length) :
    (entry W (position h i)).record = (entry V i).record := by
  have hi' : i < (V.map Process.record).length := by rw [List.length_map]; exact hi
  have hget := List.Perm.getElem_idxBij_eq_getElem h ⟨i, hi'⟩
  rw [map_record_getElem, map_record_getElem] at hget
  rw [position_eq h hi]
  exact hget

theorem position_inj {i j : ℕ} (hi : i < V.length) (hj : j < V.length)
    (heq : position h i = position h j) : i = j := by
  rw [position_eq h hi, position_eq h hj] at heq
  exact congrArg Fin.val (List.Perm.idxBij_injective h (Fin.ext heq))

theorem exists_position {k : ℕ} (hk : k < W.length) : ∃ i < V.length, position h i = k := by
  have hk' : k < (W.map Process.record).length := by rw [List.length_map]; exact hk
  have hi : (List.Perm.idxBij (SameRecords.symm h) ⟨k, hk'⟩ : ℕ) < V.length :=
    lt_of_lt_of_eq (Fin.is_lt _) (List.length_map _)
  refine ⟨_, hi, ?_⟩
  rw [position_eq h hi]
  exact congrArg Fin.val (List.Perm.idxBij_idxBij_symm h (i := ⟨k, hk'⟩))

theorem ready_position {i : ℕ} (hi : i < V.length) :
    (entry W (position h i)).ready = (entry V i).ready :=
  congrArg Record.ready (record_position h hi)

theorem exec_position {i : ℕ} (hi : i < V.length) :
    (entry W (position h i)).exec = (entry V i).exec :=
  congrArg Record.exec (record_position h hi)

/-- The entries correspond as jobs, at all times. -/
theorem matches_position (T : ℕ) : (jobsOf V).Matches (jobsOf W) (position h) T where
  mem i hi _ := mem_jobsOf.mpr (position_lt h (mem_jobsOf.mp hi))
  release i hi _ := congrArg Int.toNat (ready_position h (mem_jobsOf.mp hi))
  length i hi _ := congrArg Int.toNat (exec_position h (mem_jobsOf.mp hi))
  surj k hk hT := by
    obtain ⟨i, hi, rfl⟩ := exists_position h (mem_jobsOf.mp hk)
    refine ⟨i, mem_jobsOf.mpr hi, ?_, rfl⟩
    rwa [show (jobsOf W).release (position h i) = (jobsOf V).release i from
      congrArg Int.toNat (ready_position h hi)] at hT
  inj i hi _ j hj _ heq := position_inj h (mem_jobsOf.mp hi) (mem_jobsOf.mp hj) heq

/-- The schedule `σ` of `V`, on the table `W`. -/
def carry (σ : Schedule ℕ) : Schedule ℕ := fun t => (σ t).map (position h)

variable {σ : Schedule ℕ}

theorem follows_carry (σ : Schedule ℕ) (t : ℕ) : Jobs.Follows (position h) σ (carry h σ) t :=
  fun _ _ => rfl

theorem carry_legal (hL : (jobsOf V).Legal σ) : (jobsOf W).Legal (carry h σ) := by
  intro t k hk
  obtain ⟨i, hi, rfl⟩ := Option.map_eq_some_iff.mp hk
  exact (matches_position h t).eligible hL (Nat.le_refl t) (follows_carry h σ t) (hL t i hi)

theorem carry_served (hL : (jobsOf V).Legal σ) {i : ℕ} (hi : i < V.length) (t : ℕ) :
    (carry h σ).served t (position h i) = σ.served t i :=
  (matches_position h (t + (jobsOf V).release i)).served_eq hL (Nat.le_add_right _ _)
    (follows_carry h σ t) (mem_jobsOf.mpr hi) (Nat.le_add_left _ _)

/-- Sums over the entries do not depend on the order. -/
theorem sum_position (f : ℕ → ℕ) :
    ∑ k ∈ Finset.range W.length, f k = ∑ i ∈ Finset.range V.length, f (position h i) := by
  symm
  refine Finset.sum_nbij (position h) (fun i hi => ?_) (fun i hi j hj heq => ?_) (fun k hk => ?_)
    fun _ _ => rfl
  · exact Finset.mem_range.mpr (position_lt h (Finset.mem_range.mp hi))
  · exact position_inj h (Finset.mem_range.mp hi) (Finset.mem_range.mp hj) heq
  · obtain ⟨i, hi, rfl⟩ := exists_position h (Finset.mem_range.mp hk)
    exact ⟨i, Finset.mem_coe.mpr (Finset.mem_range.mpr hi), rfl⟩

end

end ProcSched
