/-
  ProcSched.Refine.Table

  The table a scheduler works on.  On well-formed workloads the three
  comparators compare ready times (their differences do not overflow), so FIFO,
  SJF and RR work on a permutation of the workload in ready order, and a stable
  `qsort` gives all three the same one.
-/

import ProcSched.Spec.Workload

namespace ProcSched

/-- A difference of two `int` values that is at most INT_MAX either way is
    computed without wrap-around. -/
theorem int32_sub {a b : Int} (hab : a - b ≤ intMax) (hba : b - a ≤ intMax) :
    int32 (a - b) = a - b := by
  simp only [intMax] at hab hba
  rw [int32, Int.bmod_eq_of_le] <;> omega

theorem Fifo.compare_signs (W : List Process) :
    Qsort.SignsKey Fifo.compare Process.ready W := by
  intro a _ b _
  rw [Fifo.compare]
  rcases Int.lt_trichotomy a.ready b.ready with hlt | heq | hgt
  · rw [if_pos hlt, Int.sign_eq_neg_one_of_neg (Int.sub_neg_of_lt hlt)]
    rfl
  · rw [if_neg (by omega), if_pos heq, heq, Int.sub_self]
  · rw [if_neg (by omega), if_neg (by omega), Int.sign_eq_one_of_pos (Int.sub_pos_of_lt hgt)]
    rfl

section Near

variable {W : List Process} (hnear : ∀ a ∈ W, ∀ b ∈ W, a.ready - b.ready ≤ intMax)
include hnear

theorem Sjf.cmp_signs : Qsort.SignsKey Sjf.cmp Process.ready W := by
  intro a ha b hb
  rw [Sjf.cmp, int32_sub (hnear a ha b hb) (hnear b hb a ha)]

theorem Rr.rrCompare_signs : Qsort.SignsKey Rr.rrCompare Process.ready W := by
  intro a ha b hb
  rw [Rr.rrCompare, int32_sub (hnear a ha b hb) (hnear b hb a ha)]

namespace Policy

variable {P : Policy} {q : Qsort}

/-- The three sorting schedulers work in ready order. -/
theorem table_ascending (hP : P ≠ psjf) :
    (P.table q W).Pairwise fun a b => a.ready ≤ b.ready := by
  cases P with
  | fifo => exact q.sort_sorted (Fifo.compare_signs W).comparesKey
  | sjf => exact q.sort_sorted (Sjf.cmp_signs hnear).comparesKey
  | rr => exact q.sort_sorted (Rr.rrCompare_signs hnear).comparesKey
  | psjf => exact absurd rfl hP

/-- A stable sort leaves the processes of one ready time in file order. -/
theorem filter_table (hq : q.Stable) (v : Int) :
    (P.table q W).filter (fun p => p.ready = v) = W.filter fun p => p.ready = v := by
  cases P with
  | fifo => exact hq.filter_key (Fifo.compare_signs W).comparesKey v
  | sjf => exact hq.filter_key (Sjf.cmp_signs hnear).comparesKey v
  | rr => exact hq.filter_key (Rr.rrCompare_signs hnear).comparesKey v
  | psjf => rfl

end Policy
end Near

/-- Ready times of a well-formed workload are at most INT_MAX apart. -/
theorem WellFormed.ready_near {W : List Process} (hW : WellFormed W) :
    ∀ a ∈ W, ∀ b ∈ W, a.ready - b.ready ≤ intMax := by
  intro a ha b hb
  have h₁ := hW.ready_le ha
  have h₂ := hW.ready_nonneg b hb
  omega

namespace Policy

variable {P : Policy} {q : Qsort} {W : List Process}

theorem table_perm (P : Policy) (q : Qsort) (W : List Process) : (P.table q W).Perm W := by
  cases P with
  | fifo => exact q.sort_perm _ _
  | sjf => exact q.sort_perm _ _
  | rr => exact q.sort_perm _ _
  | psjf => exact List.Perm.refl W

@[simp] theorem length_table (P : Policy) (q : Qsort) (W : List Process) :
    (P.table q W).length = W.length :=
  (P.table_perm q W).length_eq

theorem table_wellFormed (hW : WellFormed W) : WellFormed (P.table q W) :=
  hW.perm (P.table_perm q W)

theorem table_sorted (hW : WellFormed W) (hP : P ≠ psjf) :
    (P.table q W).Pairwise fun a b => a.ready ≤ b.ready :=
  table_ascending hW.ready_near hP

theorem table_filter (hq : q.Stable) (hW : WellFormed W) (v : Int) :
    (P.table q W).filter (fun p => p.ready = v) = W.filter fun p => p.ready = v :=
  filter_table hW.ready_near hq v

/-- With a stable sort the table is the one list in ready order that has the
    processes of every ready time in file order. -/
theorem table_eq (hq : q.Stable) (hW : WellFormed W) (hP : P ≠ psjf) {V : List Process}
    (hV : V.Pairwise fun a b => a.ready ≤ b.ready)
    (hf : ∀ v, V.filter (fun p => p.ready = v) = W.filter fun p => p.ready = v) :
    P.table q W = V := by
  apply Qsort.eq_of_filter_key (table_sorted hW hP) hV
  intro v
  rw [table_filter hq hW, hf]

/-- A stable sort leaves a workload in ready order as it is. -/
theorem table_eq_self (hq : q.Stable) (hW : WellFormed W)
    (hs : W.Pairwise fun a b => a.ready ≤ b.ready) : P.table q W = W := by
  by_cases hP : P = psjf
  · rw [hP]
    rfl
  · exact table_eq hq hW hP hs fun _ => rfl

end Policy

/-- In a table in ready order the ready times ascend with the index. -/
theorem ready_le_of_le {W : List Process} (hs : W.Pairwise fun a b => a.ready ≤ b.ready)
    {i j : Nat} (hij : i ≤ j) (hj : j < W.length) : (entry W i).ready ≤ (entry W j).ready := by
  rcases Nat.eq_or_lt_of_le hij with rfl | hlt
  · exact Int.le_refl _
  · rw [entry_eq_getElem (by omega), entry_eq_getElem hj]
    exact List.pairwise_iff_getElem.mp hs i j (by omega) hj hlt

end ProcSched
