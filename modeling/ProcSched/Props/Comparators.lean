/-
  ProcSched.Props.Comparators

  The comparators of FIFO.c, SJF.c and RR.c on tables with any ready values main
  can read.  FIFO.c compares; SJF.c and RR.c return the difference, which leaves
  the range of `int` for ready times more than INT_MAX apart and then has the
  wrong sign.  The three define one order exactly on the tables without such a
  pair.
-/

import ProcSched.Refine.Table

namespace ProcSched

/-- The three comparators have the same sign on every pair of entries, each is
    what `qsort` asks for, and the three schedulers put the table in the same
    ascending order of ready times, with a stable sort the same table. -/
structure SameOrder (W : List Process) : Prop where
  sign_cmp : ∀ a ∈ W, ∀ b ∈ W, (Sjf.cmp a b).sign = (Fifo.compare a b).sign
  sign_rrCompare : ∀ a ∈ W, ∀ b ∈ W, (Rr.rrCompare a b).sign = (Fifo.compare a b).sign
  valid_compare : Qsort.ValidOn Fifo.compare W
  valid_cmp : Qsort.ValidOn Sjf.cmp W
  valid_rrCompare : Qsort.ValidOn Rr.rrCompare W
  ascending : ∀ P : Policy, P ≠ .psjf → ∀ q : Qsort,
    (P.table q W).Pairwise fun a b => a.ready ≤ b.ready
  same_ready : ∀ P P' : Policy, P ≠ .psjf → P' ≠ .psjf → ∀ q q' : Qsort,
    (P.table q W).map Process.ready = (P'.table q' W).map Process.ready
  same_table : ∀ P P' : Policy, P ≠ .psjf → P' ≠ .psjf → ∀ q : Qsort, q.Stable →
    P.table q W = P'.table q W

variable {W : List Process}

/-- A difference above INT_MAX wraps to a negative value. -/
theorem int32_sub_neg {a b : Int} (ha : IsInt a) (hb : IsInt b) (hab : intMax < a - b) :
    int32 (a - b) < 0 := by
  simp only [IsInt, intMax] at ha hb hab
  have hwrap : int32 (a - b) = a - b - 0x100000000 := by
    rw [int32, ← Int.sub_bmod_right, Int.bmod_eq_of_le] <;> omega
  omega

theorem sameOrder_of_near (hnear : ∀ a ∈ W, ∀ b ∈ W, a.ready - b.ready ≤ intMax) :
    SameOrder W where
  sign_cmp a ha b hb := by
    rw [Sjf.cmp_signs hnear a ha b hb, Fifo.compare_signs W a ha b hb]
  sign_rrCompare a ha b hb := by
    rw [Rr.rrCompare_signs hnear a ha b hb, Fifo.compare_signs W a ha b hb]
  valid_compare := (Fifo.compare_signs W).validOn
  valid_cmp := (Sjf.cmp_signs hnear).validOn
  valid_rrCompare := (Rr.rrCompare_signs hnear).validOn
  ascending P hP q := Policy.table_ascending hnear hP
  same_ready P P' hP hP' q q' := by
    apply Qsort.map_key_eq_of_perm
    · exact (P.table_perm q W).trans (P'.table_perm q' W).symm
    · exact Policy.table_ascending hnear hP
    · exact Policy.table_ascending hnear hP'
  same_table P P' hP hP' q hq := by
    apply Qsort.eq_of_filter_key (Policy.table_ascending hnear hP)
      (Policy.table_ascending hnear hP')
    intro v
    rw [Policy.filter_table hnear hq, Policy.filter_table hnear hq]

/-- On ready values an `int` holds, the three comparators define the same order
    exactly when no two of the values are more than INT_MAX apart. -/
theorem sameOrder_iff (W : List Process) (hint : ∀ p ∈ W, IsInt p.ready) :
    SameOrder W ↔ ∀ a ∈ W, ∀ b ∈ W, a.ready - b.ready ≤ intMax := by
  refine ⟨fun h a ha b hb => ?_, sameOrder_of_near⟩
  by_contra hfar
  have hfar : intMax < a.ready - b.ready := Int.not_le.mp hfar
  -- FIFO puts `b` first, the wrapped difference of SJF puts `a` first
  have hneg : (Sjf.cmp a b).sign = -1 :=
    Int.sign_eq_neg_one_of_neg (int32_sub_neg (hint a ha) (hint b hb) hfar)
  have hpos : (Fifo.compare a b).sign = 1 := by
    rw [Fifo.compare_signs W a ha b hb]
    apply Int.sign_eq_one_of_pos
    simp only [intMax] at hfar
    omega
  have := h.sign_cmp a ha b hb
  omega

theorem sameOrder_iff_readme : SameOrder readmeWorkload ↔
    ∀ a ∈ readmeWorkload, ∀ b ∈ readmeWorkload, a.ready - b.ready ≤ intMax :=
  sameOrder_iff readmeWorkload (by decide)

/-- Two processes whose ready values are INT_MAX + 2 apart. -/
def farApart : List Process := cleanTable [⟨"P1", -2147483648, 1⟩, ⟨"P2", 1, 1⟩]

/-- P1 is ready first; the differences of SJF and RR come out positive. -/
theorem farApart_not_sameOrder :
    (∀ p ∈ farApart, IsInt p.ready) ∧ ¬ SameOrder farApart := by
  refine ⟨by decide, fun h => ?_⟩
  have hsign := h.sign_cmp (entry farApart 0) (by decide) (entry farApart 1) (by decide)
  revert hsign
  decide

end ProcSched
