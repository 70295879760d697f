/-
  ProcSched.Lib.Bytes

  An object of a C program as its bytes.  `store` writes inside the object or not
  at all; `load` reads a range, which a store leaves alone unless it overlaps it.
  On top of the two stand integers, least significant byte first, and strings,
  which end at the first zero byte.
-/

import Mathlib.Algebra.Ring.Nat
import Mathlib.Data.List.TakeWhile

namespace ProcSched
namespace Bytes

variable {mem mem' bs w : List UInt8} {a b n : ℕ}

/-- The object after `bs` has been written at offset `a`; `none` if `bs` does not
    end inside it. -/
def store (mem : List UInt8) (a : ℕ) (bs : List UInt8) : Option (List UInt8) :=
  if a + bs.length ≤ mem.length then some (mem.take a ++ bs ++ mem.drop (a + bs.length)) else none

/-- The `n` bytes at offset `a`. -/
def load (mem : List UInt8) (a n : ℕ) : List UInt8 := (mem.drop a).take n

theorem store_isSome : (store mem a bs).isSome ↔ a + bs.length ≤ mem.length := by
  rw [store]
  split <;> simp [*]

theorem store_eq_some (h : a + bs.length ≤ mem.length) :
    store mem a bs = some (mem.take a ++ bs ++ mem.drop (a + bs.length)) := if_pos h

theorem exists_store (h : a + bs.length ≤ mem.length) : ∃ mem', store mem a bs = some mem' :=
  ⟨_, store_eq_some h⟩

section Store

variable (h : store mem a bs = some mem')
include h

theorem le_of_store : a + bs.length ≤ mem.length := by
  rw [← store_isSome, h]
  rfl

theorem eq_of_store : mem' = mem.take a ++ bs ++ mem.drop (a + bs.length) := by
  rw [store_eq_some (le_of_store h)] at h
  exact (Option.some.inj h).symm

theorem length_of_store : mem'.length = mem.length := by
  have hle := le_of_store h
  rw [eq_of_store h, List.length_append, List.length_append, List.length_take, List.length_drop]
  omega

theorem getElem?_of_store (i : ℕ) :
    mem'[i]? = if a ≤ i ∧ i < a + bs.length then bs[i - a]? else mem[i]? := by
  have hle := le_of_store h
  have htake : (mem.take a).length = a := by
    rw [List.length_take]
    omega
  rw [eq_of_store h, List.append_assoc]
  by_cases hi : i < a
  · rw [List.getElem?_append_left (by omega), List.getElem?_take_of_lt hi, if_neg (by omega)]
  · rw [List.getElem?_append_right (by omega), htake]
    by_cases hin : i < a + bs.length
    · rw [List.getElem?_append_left (by omega), if_pos ⟨by omega, hin⟩]
    · rw [List.getElem?_append_right (by omega), List.getElem?_drop, if_neg (by omega)]
      congr 1
      omega

/-- What was written is read back. -/
theorem load_of_store : load mem' a bs.length = bs := by
  apply List.ext_getElem?
  intro i
  rw [load, List.getElem?_take]
  by_cases hi : i < bs.length
  · rw [if_pos hi, List.getElem?_drop, getElem?_of_store h, if_pos ⟨by omega, by omega⟩]
    congr 1
    omega
  · rw [if_neg hi, List.getElem?_eq_none (by omega)]

/-- Nothing changes outside the bytes that were written. -/
theorem load_of_store_of_disjoint (hd : b + n ≤ a ∨ a + bs.length ≤ b) :
    load mem' b n = load mem b n := by
  apply List.ext_getElem?
  intro i
  rw [load, load, List.getElem?_take, List.getElem?_take]
  by_cases hi : i < n
  · rw [if_pos hi, if_pos hi, List.getElem?_drop, List.getElem?_drop, getElem?_of_store h,
      if_neg (by omega)]
  · rw [if_neg hi, if_neg hi]

end Store

/-! ## Integers -/

/-- The lowest `width` bytes of a number, the least significant one first. -/
def littleEndian : ℕ → ℕ → List UInt8
  | 0, _ => []
  | width + 1, v => UInt8.ofNat (v % 256) :: littleEndian width (v / 256)

/-- The number whose bytes these are. -/
def ofLittleEndian : List UInt8 → ℕ
  | [] => 0
  | b :: bs => b.toNat + 256 * ofLittleEndian bs

@[simp] theorem length_littleEndian (width v : ℕ) : (littleEndian width v).length = width := by
  induction width generalizing v with
  | zero => rfl
  | succ width ih => rw [littleEndian, List.length_cons, ih]

theorem ofLittleEndian_littleEndian (width v : ℕ) :
    ofLittleEndian (littleEndian width v) = v % 256 ^ width := by
  induction width generalizing v with
  | zero => rw [Nat.pow_zero, Nat.mod_one, littleEndian, ofLittleEndian]
  | succ width ih =>
      have hbyte : (UInt8.ofNat (v % 256)).toNat = v % 256 := by
        rw [UInt8.toNat_ofNat']
        omega
      rw [littleEndian, ofLittleEndian, ih, hbyte, Nat.pow_succ', Nat.mod_mul]

/-! ## Strings -/

/-- The string at offset `a`, without its terminator. -/
def cString (mem : List UInt8) (a : ℕ) : List UInt8 := (mem.drop a).takeWhile (· ≠ 0)

/-- A zero byte ends the string, whatever is behind it. -/
theorem takeWhile_terminated (w rest : List UInt8) :
    (w ++ 0 :: rest).takeWhile (· ≠ 0) = w.takeWhile (· ≠ 0) := by
  rw [List.takeWhile_append]
  split
  · next hall =>
    rw [List.takeWhile_cons_of_neg (by simp), List.append_nil]
    exact ((List.takeWhile_prefix _).eq_of_length hall).symm
  · rfl

theorem takeWhile_of_notMem (hw : 0 ∉ w) : w.takeWhile (· ≠ 0) = w := by
  rw [List.takeWhile_eq_self_iff]
  intro x hx
  rw [decide_eq_true_iff]
  rintro rfl
  exact hw hx

/-- Bytes without a zero, and a zero behind them. -/
theorem cString_of_load (h : load mem a (w.length + 1) = w ++ [0]) (hw : 0 ∉ w) :
    cString mem a = w := by
  have hsplit : mem.drop a = w ++ 0 :: mem.drop (a + (w.length + 1)) := by
    rw [load] at h
    rw [← List.take_append_drop (w.length + 1) (mem.drop a), List.drop_drop, h,
      List.append_assoc, List.singleton_append]
  rw [cString, hsplit, takeWhile_terminated, takeWhile_of_notMem hw]

/-- Bytes written with a zero behind them end as a string at their first zero. -/
theorem cString_of_store (h : store mem a (w ++ [0]) = some mem') :
    cString mem' a = w.takeWhile (· ≠ 0) := by
  have hle := le_of_store h
  have htake : (mem.take a).length = a := by
    rw [List.length_append] at hle
    rw [List.length_take]
    omega
  have hsplit : mem'.drop a = w ++ 0 :: mem.drop (a + (w ++ [0]).length) := by
    rw [eq_of_store h, List.append_assoc, List.drop_left' htake, List.append_assoc,
      List.singleton_append]
  rw [cString, hsplit, takeWhile_terminated]

end Bytes
end ProcSched
