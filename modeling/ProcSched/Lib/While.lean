/-
  ProcSched.Lib.While

  `while` loops over one variable, given by their test and their body.  `Stops`
  says after how many passes and at which value such a loop ends; a loop that
  never ends has no such number.  The last section is about the loop that walks
  round a ring of `n` indices.
-/

import Mathlib.Data.Nat.Find
import Mathlib.Logic.Function.Iterate

namespace ProcSched
namespace While

variable {α : Type} {test : α → Prop} {body : α → α} {a b c : α} {k m : ℕ}

/-- `while (test) body`, entered at `a`, ends after `m` passes at `b`. -/
structure Stops (test : α → Prop) (body : α → α) (a : α) (m : ℕ) (b : α) : Prop where
  result : body^[m] a = b
  ends : ¬ test b
  goes_on : ∀ l < m, test (body^[l] a)

theorem Stops.zero (h : ¬ test a) : Stops test body a 0 a :=
  ⟨rfl, h, fun l hl => absurd hl (Nat.not_lt_zero l)⟩

theorem Stops.succ (h : test a) (hs : Stops test body (body a) m b) :
    Stops test body a (m + 1) b := by
  refine ⟨by rw [Function.iterate_succ_apply, hs.result], hs.ends, fun l hl => ?_⟩
  cases l with
  | zero => exact h
  | succ l =>
      rw [Function.iterate_succ_apply]
      exact hs.goes_on l (by omega)

/-- One pass at a time. -/
theorem stops_cases : Stops test body a m b ↔
    (m = 0 ∧ b = a ∧ ¬ test a) ∨ (test a ∧ ∃ l, m = l + 1 ∧ Stops test body (body a) l b) := by
  constructor
  · intro h
    cases m with
    | zero =>
        obtain rfl := h.result
        exact Or.inl ⟨rfl, rfl, h.ends⟩
    | succ l =>
        refine Or.inr ⟨h.goes_on 0 (Nat.succ_pos l), l, rfl, h.result, h.ends, fun j hj => ?_⟩
        have := h.goes_on (j + 1) (by omega)
        rwa [Function.iterate_succ_apply] at this
  · rintro (⟨rfl, rfl, h⟩ | ⟨h, l, rfl, hs⟩)
    · exact Stops.zero h
    · exact hs.succ h

/-- A loop ends in one way. -/
theorem Stops.unique (h : Stops test body a m b) (h' : Stops test body a k c) : m = k ∧ b = c := by
  have hle : ∀ {m k : ℕ} {b c : α}, Stops test body a m b → Stops test body a k c → k ≤ m := by
    intro m k b c h h'
    by_contra hlt
    have := h'.goes_on m (by omega)
    rw [h.result] at this
    exact h.ends this
  obtain rfl : m = k := Nat.le_antisymm (hle h' h) (hle h h')
  exact ⟨rfl, h.result.symm.trans h'.result⟩

/-- A loop that comes to a value outside its test ends, there or before. -/
theorem exists_stops (h : ¬ test (body^[k] a)) : ∃ m ≤ k, Stops test body a m (body^[m] a) := by
  classical
  have hex : ∃ m, ¬ test (body^[m] a) := ⟨k, h⟩
  refine ⟨Nat.find hex, Nat.find_le h, rfl, Nat.find_spec hex, fun l hl => ?_⟩
  exact not_not.mp (Nat.find_min hex hl)

/-! ## Round a ring -/

section Ring

variable {n r i : ℕ} {test : ℕ → Prop}

theorem iterate_ring (hr : r < n) (m : ℕ) : (fun i => (i + 1) % n)^[m] r = (r + m) % n := by
  induction m with
  | zero => exact (Nat.mod_eq_of_lt hr).symm
  | succ m ih => rw [Function.iterate_succ_apply', ih, Nat.mod_add_mod, Nat.add_assoc]

/-- The walk round the ring that starts behind `r`. -/
theorem iterate_ring_succ (hr : r < n) (m : ℕ) :
    (fun i => (i + 1) % n)^[m] ((r + 1) % n) = (r + 1 + m) % n := by
  rw [iterate_ring (Nat.mod_lt _ (by omega)), Nat.mod_add_mod]

/-- Every index but `r` is met before `r` itself. -/
theorem exists_ring_succ {j : ℕ} (hr : r < n) (hj : j < n) (hne : j ≠ r) :
    ∃ l < n - 1, (r + 1 + l) % n = j := by
  rcases Nat.lt_or_gt_of_ne hne with hlt | hgt
  · refine ⟨j + n - (r + 1), by omega, ?_⟩
    rw [show r + 1 + (j + n - (r + 1)) = j + n by omega, Nat.add_mod_right, Nat.mod_eq_of_lt hj]
  · refine ⟨j - (r + 1), by omega, ?_⟩
    rw [show r + 1 + (j - (r + 1)) = j by omega, Nat.mod_eq_of_lt hj]

/-- From behind an index `r` outside the test the walk ends within the ring, at
    the latest when it comes round to `r`. -/
theorem ring_stops (hr : r < n) (h : ¬ test r) : ∃ m i, m ≤ n - 1 ∧ i < n ∧
    Stops test (fun i => (i + 1) % n) ((r + 1) % n) m i := by
  have hround : (fun i => (i + 1) % n)^[n - 1] ((r + 1) % n) = r := by
    rw [iterate_ring_succ hr, show r + 1 + (n - 1) = r + n by omega, Nat.add_mod_right,
      Nat.mod_eq_of_lt hr]
  obtain ⟨m, hm, hs⟩ := exists_stops (by rw [hround]; exact h)
  refine ⟨m, _, hm, ?_, hs⟩
  rw [iterate_ring_succ hr]
  exact Nat.mod_lt _ (by omega)

/-- It comes round to `r` exactly when every other index is in the test. -/
theorem Stops.eq_start_iff (hr : r < n) (hm : m ≤ n - 1) (hi : i < n)
    (hs : Stops test (fun i => (i + 1) % n) ((r + 1) % n) m i) :
    i = r ↔ ∀ j < n, j ≠ r → test j := by
  constructor
  · intro hir j hj hne
    -- the walk has made the whole round
    have hfull : m = n - 1 := by
      have hback := hs.result
      rw [iterate_ring_succ hr, hir] at hback
      by_contra hlt
      rcases Nat.lt_or_ge (r + 1 + m) n with hin | hout
      · rw [Nat.mod_eq_of_lt hin] at hback
        omega
      · rw [Nat.mod_eq_sub_mod hout, Nat.mod_eq_of_lt (by omega)] at hback
        omega
    obtain ⟨l, hl, hlj⟩ := exists_ring_succ hr hj hne
    have := hs.goes_on l (by omega)
    rwa [iterate_ring_succ hr, hlj] at this
  · intro hall
    by_contra hne
    exact hs.ends (hall i hi hne)

end Ring

end While
end ProcSched
