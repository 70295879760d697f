/-
  ProcSched.Lib.Printf

  Streams for `fscanf`: integers in decimal, and tokens with white space between
  them.  What is written so is read back (`intValue_numeral`, `tokens_spaced`), and
  a string of the program is written so (`bytes_toString`, `bytes_ofList`).
-/

import Mathlib.Data.List.Basic
import ProcSched.Lib.Scanf

namespace ProcSched
namespace Scanf

/-- The decimal digits of a number. -/
def digits (n : ℕ) : List UInt8 := (Nat.toDigits 10 n).map fun c => UInt8.ofNat c.toNat

/-- `%d` as `fprintf` writes it. -/
def numeral : Int → List UInt8
  | .ofNat n => digits n
  | .negSucc n => 45 :: digits (n + 1)

/-- The bytes of a string that has a character for each byte. -/
def bytes (s : String) : List UInt8 := s.toList.map fun c => UInt8.ofNat c.toNat

/-- A byte at least and no white space. -/
def IsToken (t : List UInt8) : Prop := t ≠ [] ∧ ∀ b ∈ t, isSpace b = false

instance (t : List UInt8) : Decidable (IsToken t) :=
  inferInstanceAs (Decidable (t ≠ [] ∧ ∀ b ∈ t, isSpace b = false))

/-- Tokens, each with what stands behind it. -/
def spaced (l : List (List UInt8 × List UInt8)) : List UInt8 := l.flatMap fun x => x.1 ++ x.2

variable {n : ℕ} {t w s : List UInt8}

/-! ## Integers -/

theorem digits_ne_nil (n : ℕ) : digits n ≠ [] :=
  List.map_eq_nil_iff.not.mpr Nat.toDigits_ne_nil

/-- A digit of a number is one of ten bytes. -/
theorem toNat_of_mem_toDigits {c : Char} (h : c ∈ Nat.toDigits 10 n) :
    48 ≤ c.toNat ∧ c.toNat ≤ 57 := by
  have hdigit := Nat.isDigit_of_mem_toDigits (by decide) (by decide) h
  simpa [Char.isDigit, UInt32.le_iff_toNat_le] using hdigit

theorem isDigit_of_mem_digits : ∀ b ∈ digits n, isDigit b = true := by
  intro b hb
  obtain ⟨c, hc, rfl⟩ := List.mem_map.mp hb
  obtain ⟨hlo, hhi⟩ := toNat_of_mem_toDigits hc
  rw [isDigit, Bool.and_eq_true, decide_eq_true_iff, decide_eq_true_iff, UInt8.le_iff_toNat_le,
    UInt8.le_iff_toNat_le, UInt8.toNat_ofNat']
  have hmod : c.toNat % 2 ^ 8 = c.toNat := Nat.mod_eq_of_lt (by omega)
  rw [hmod]
  exact ⟨hlo, hhi⟩

theorem decimal_digits (n : ℕ) : decimal (digits n) = n := by
  rw [decimal, digits, List.foldl_map]
  refine Eq.trans ?_ Nat.ofDigitChars_ten_toDigits
  rw [Nat.ofDigitChars_eq_foldl]
  refine List.foldl_ext _ _ _ fun m c hc => ?_
  have hhi := (toNat_of_mem_toDigits hc).2
  have hmod : c.toNat % 2 ^ 8 = c.toNat := Nat.mod_eq_of_lt (by omega)
  rw [UInt8.toNat_ofNat', hmod]
  rfl

theorem splitSign_digits (n : ℕ) : splitSign (digits n) = (1, digits n) := by
  obtain ⟨b, ds, hds⟩ := List.exists_cons_of_ne_nil (digits_ne_nil n)
  have hb : isDigit b = true := isDigit_of_mem_digits (n := n) b (by rw [hds]; simp)
  rw [hds, splitSign, if_neg, if_neg]
  · rintro rfl
    exact absurd hb (by decide)
  · rintro rfl
    exact absurd hb (by decide)

theorem intValue_numeral (v : Int) : intValue (numeral v) = some v := by
  have hall : ∀ m, (digits m).all isDigit = true := fun m =>
    List.all_eq_true.mpr isDigit_of_mem_digits
  cases v with
  | ofNat m =>
      rw [numeral, intValue, splitSign_digits, if_pos ⟨digits_ne_nil m, hall m⟩, decimal_digits,
        Int.one_mul]
      rfl
  | negSucc m =>
      have hsign : splitSign (45 :: digits (m + 1)) = (-1, digits (m + 1)) := rfl
      rw [numeral, intValue, hsign, if_pos ⟨digits_ne_nil _, hall _⟩, decimal_digits,
        Int.negSucc_eq]
      simp

theorem not_isSpace_of_isDigit {b : UInt8} (h : isDigit b = true) : isSpace b = false := by
  by_contra hs
  rw [not_isDigit_of_isSpace (by simpa using hs)] at h
  exact Bool.false_ne_true h

theorem isToken_numeral (v : Int) : IsToken (numeral v) := by
  have hdigits : ∀ m, ∀ b ∈ digits m, isSpace b = false := fun m b hb =>
    not_isSpace_of_isDigit (isDigit_of_mem_digits b hb)
  cases v with
  | ofNat m => exact ⟨digits_ne_nil m, hdigits m⟩
  | negSucc m =>
      refine ⟨List.cons_ne_nil _ _, fun b hb => ?_⟩
      rcases List.mem_cons.mp hb with rfl | hb
      · decide
      · exact hdigits _ b hb

/-! ## Strings -/

@[simp] theorem bytes_append (s t : String) : bytes (s ++ t) = bytes s ++ bytes t := by
  rw [bytes, String.toList_append, List.map_append]
  rfl

theorem bytes_repr (n : ℕ) : bytes (Nat.repr n) = digits n := by
  rw [bytes, Nat.repr, String.toList_ofList, digits]

/-- An integer is printed as `%d` is written. -/
theorem bytes_toString (v : Int) : bytes (toString v) = numeral v := by
  cases v with
  | ofNat n => exact bytes_repr n
  | negSucc n =>
      show bytes ("-" ++ Nat.repr (n + 1)) = _
      rw [bytes_append, bytes_repr]
      rfl

theorem bytes_ofList (bs : List UInt8) :
    bytes (String.ofList (bs.map fun b => Char.ofNat b.toNat)) = bs := by
  have hbyte : ∀ b : UInt8, UInt8.ofNat (Char.ofNat b.toNat).toNat = b := by
    intro b
    have hlt := b.toNat_lt
    have hvalid : b.toNat.isValidChar := Or.inl (by omega)
    rw [Char.ofNat, dif_pos hvalid]
    exact UInt8.ofNat_toNat
  rw [bytes, String.toList_ofList, List.map_map]
  exact (List.map_congr_left fun b _ => hbyte b).trans (List.map_id bs)

/-! ## White space -/

theorem tokens_token_space (ht : IsToken t) (hw : w ≠ []) (hspace : ∀ b ∈ w, isSpace b = true)
    (s : List UInt8) : tokens (t ++ w ++ s) = t :: tokens s := by
  obtain ⟨b, w', rfl⟩ := List.exists_cons_of_ne_nil hw
  have hf : FirstToken (t ++ (b :: w') ++ s) t ((b :: w') ++ s) := by
    refine ⟨?_, ht.1, ht.2, fun b' hb' => ?_⟩
    · obtain ⟨c, t', rfl⟩ := List.exists_cons_of_ne_nil ht.1
      rw [List.append_assoc, List.cons_append, List.dropWhile_cons_of_neg]
      rw [ht.2 c List.mem_cons_self]
      exact Bool.false_ne_true
    · obtain rfl : b = b' := by simpa using hb'
      exact hspace b List.mem_cons_self
  rw [hf.tokens_eq, ← tokens_dropWhile, List.dropWhile_append_of_pos hspace, tokens_dropWhile]

/-- The tokens of a stream written token by token. -/
theorem tokens_spaced {l : List (List UInt8 × List UInt8)} (htoken : ∀ x ∈ l, IsToken x.1)
    (hspace : ∀ x ∈ l, x.2 ≠ [] ∧ ∀ b ∈ x.2, isSpace b = true) :
    tokens (spaced l) = l.map Prod.fst := by
  induction l with
  | nil => rfl
  | cons x l ih =>
      obtain ⟨hne, hall⟩ := hspace x List.mem_cons_self
      rw [spaced, List.flatMap_cons, tokens_token_space (htoken x List.mem_cons_self) hne hall,
        List.map_cons]
      exact congrArg (x.1 :: ·) (ih (fun y hy => htoken y (List.mem_cons_of_mem x hy))
        fun y hy => hspace y (List.mem_cons_of_mem x hy))

end Scanf
end ProcSched
