/-
  ProcSched.Lib.Scanf

  `fscanf` on a stream of bytes, for the conversions %s and %d.  A conversion
  skips white space and takes as many bytes as it can use; the first one that
  fails ends the call, and the byte it fails at stays in the stream.

  The same stream is seen as its tokens, the runs of bytes between white space.
  `readTokens` is what a format makes of a list of tokens if every conversion
  takes exactly one; there `scan` gives the same values and leaves the same
  tokens (`scan_of_readTokens`).  Whatever the stream, `scan` sees nothing of it
  but the tokens (`scan_congr`).
-/

import Mathlib.Data.List.TakeWhile

namespace ProcSched
namespace Scanf

/-- White space in the C locale: blank, and tab to carriage return. -/
def isSpace (b : UInt8) : Bool := b = 32 || (9 ≤ b && b ≤ 13)

def isDigit (b : UInt8) : Bool := 48 ≤ b && b ≤ 57

/-- The number that decimal digits denote. -/
def decimal (ds : List UInt8) : ℕ := ds.foldl (fun n d => 10 * n + (d.toNat - 48)) 0

/-- An optional sign, and the bytes behind it. -/
def splitSign : List UInt8 → Int × List UInt8
  | [] => (1, [])
  | b :: s => if b = 45 then (-1, s) else if b = 43 then (1, s) else (1, b :: s)

inductive Conversion where
  /-- `%s` -/
  | word
  /-- `%d` -/
  | int
  deriving DecidableEq

/-- What a conversion has read. -/
inductive Value where
  | word (w : List UInt8)
  | int (v : Int)
  deriving DecidableEq

/-- `%s`: the bytes up to the next white space, at least one. -/
def scanWord (s : List UInt8) : Option Value × List UInt8 :=
  let s := s.dropWhile isSpace
  if s = [] then (none, [])
  else (some (.word (s.takeWhile fun b => !isSpace b)), s.dropWhile fun b => !isSpace b)

/-- `%d`: an optional sign and at least one digit.  A sign without a digit is
    taken from the stream all the same. -/
def scanInt (s : List UInt8) : Option Value × List UInt8 :=
  let s := splitSign (s.dropWhile isSpace)
  if s.2.takeWhile isDigit = [] then (none, s.2)
  else (some (.int (s.1 * decimal (s.2.takeWhile isDigit))), s.2.dropWhile isDigit)

def Conversion.scan : Conversion → List UInt8 → Option Value × List UInt8
  | word => scanWord
  | int => scanInt

/-- The values a format has read up to its first failure, and the rest of the
    stream. -/
def scan : List Conversion → List UInt8 → List Value × List UInt8
  | [], s => ([], s)
  | c :: cs, s =>
    match c.scan s with
    | (none, s) => ([], s)
    | (some v, s) => (v :: (scan cs s).1, (scan cs s).2)

/-! ## Tokens -/

/-- The runs of bytes between white space. -/
def tokens (s : List UInt8) : List (List UInt8) := (s.splitOnP isSpace).filter (· ≠ [])

/-- The integer a token denotes. -/
def intValue (t : List UInt8) : Option Int :=
  if (splitSign t).2 ≠ [] ∧ (splitSign t).2.all isDigit then
    some ((splitSign t).1 * decimal (splitSign t).2)
  else none

/-- What a conversion makes of one token. -/
def Conversion.read : Conversion → List UInt8 → Option Value
  | word, t => some (.word t)
  | int, t => (intValue t).map .int

/-- What a format makes of a list of tokens, one for each conversion, and the
    tokens behind them. -/
def readTokens : List Conversion → List (List UInt8) → Option (List Value × List (List UInt8))
  | [], ts => some ([], ts)
  | _ :: _, [] => none
  | c :: cs, t :: ts =>
    match c.read t, readTokens cs ts with
    | some v, some r => some (v :: r.1, r.2)
    | _, _ => none

variable {s t rest : List UInt8} {ts : List (List UInt8)}

theorem tokens_cons_space {b : UInt8} (hb : isSpace b = true) (s : List UInt8) :
    tokens (b :: s) = tokens s := by
  rw [tokens, List.splitOnP_cons_eq_if_modifyHead, if_pos hb, List.filter_cons_of_neg (by simp)]
  rfl

theorem tokens_dropWhile (s : List UInt8) : tokens (s.dropWhile isSpace) = tokens s := by
  induction s with
  | nil => rfl
  | cons b s ih =>
      by_cases hb : isSpace b = true
      · rw [List.dropWhile_cons_of_pos hb, ih, tokens_cons_space hb]
      · rw [List.dropWhile_cons_of_neg hb]

/-- `t` is the first token of the stream and `rest` is what stands behind it. -/
structure FirstToken (s t rest : List UInt8) : Prop where
  split : s.dropWhile isSpace = t ++ rest
  nonempty : t ≠ []
  solid : ∀ b ∈ t, isSpace b = false
  ends : ∀ b ∈ rest.head?, isSpace b = true

theorem FirstToken.tokens_eq (h : FirstToken s t rest) : tokens s = t :: tokens rest := by
  rw [← tokens_dropWhile, h.split]
  cases hrest : rest with
  | nil =>
      rw [List.append_nil, tokens, List.splitOnP_eq_singleton h.solid,
        List.filter_cons_of_pos (by simpa using h.nonempty)]
      rfl
  | cons b rest' =>
      have hb : isSpace b = true := h.ends b (by rw [hrest]; rfl)
      rw [tokens_cons_space hb, tokens, List.splitOnP_append_cons_of_forall_mem h.solid b hb,
        List.filter_cons_of_pos (by simpa using h.nonempty)]
      rfl

/-- A stream has a first token or is white space. -/
theorem firstToken_or_nil (s : List UInt8) :
    (s.dropWhile isSpace = [] ∧ tokens s = []) ∨ ∃ t rest, FirstToken s t rest := by
  by_cases hs : s.dropWhile isSpace = []
  · refine Or.inl ⟨hs, ?_⟩
    rw [← tokens_dropWhile, hs]
    rfl
  · refine Or.inr ⟨(s.dropWhile isSpace).takeWhile fun b => !isSpace b,
      (s.dropWhile isSpace).dropWhile fun b => !isSpace b, ?_, ?_, ?_, ?_⟩
    · exact List.takeWhile_append_dropWhile.symm
    · -- the byte at which the white space ends is in the token
      have hhead := List.head_dropWhile_not isSpace hs
      obtain ⟨b, r, hr⟩ := List.exists_cons_of_ne_nil hs
      simp only [hr, List.head_cons] at hhead
      rw [hr, List.takeWhile_cons_of_pos (by rw [hhead]; rfl)]
      exact List.cons_ne_nil _ _
    · intro b hb
      simpa using List.mem_takeWhile_imp hb
    · intro b hb
      have hhead := List.head?_dropWhile_not (fun b => !isSpace b) (s.dropWhile isSpace)
      rw [Option.mem_def.mp hb] at hhead
      simpa using hhead

theorem firstToken_of_tokens (h : tokens s = t :: ts) :
    ∃ rest, FirstToken s t rest ∧ tokens rest = ts := by
  rcases firstToken_or_nil s with ⟨-, hnil⟩ | ⟨t', rest, hf⟩
  · rw [hnil] at h
    cases h
  · rw [hf.tokens_eq, List.cons.injEq] at h
    obtain ⟨rfl, rfl⟩ := h
    exact ⟨rest, hf, rfl⟩

/-! ## Scanning a token -/

section Take

variable {p : UInt8 → Bool} {w : List UInt8} (hw : ∀ b ∈ w, p b = true)
  (hrest : ∀ b ∈ rest.head?, p b = false)
include hw hrest

theorem takeWhile_append_eq : (w ++ rest).takeWhile p = w := by
  rw [List.takeWhile_append_of_pos hw]
  cases rest with
  | nil => rw [List.takeWhile_nil, List.append_nil]
  | cons b rest =>
      rw [List.takeWhile_cons_of_neg (by simpa using hrest b rfl), List.append_nil]

theorem dropWhile_append_eq : (w ++ rest).dropWhile p = rest := by
  rw [List.dropWhile_append_of_pos hw]
  cases rest with
  | nil => rfl
  | cons b rest => rw [List.dropWhile_cons_of_neg (by simpa using hrest b rfl)]

end Take

theorem FirstToken.scanWord_eq (h : FirstToken s t rest) :
    scanWord s = (some (.word t), rest) := by
  have hw : ∀ b ∈ t, (!isSpace b) = true := fun b hb => by rw [h.solid b hb]; rfl
  have hrest : ∀ b ∈ rest.head?, (!isSpace b) = false := fun b hb => by rw [h.ends b hb]; rfl
  have hne : t ++ rest ≠ [] := fun he => h.nonempty (List.append_eq_nil_iff.mp he).1
  simp only [scanWord, h.split, if_neg hne, takeWhile_append_eq hw hrest,
    dropWhile_append_eq hw hrest]

theorem not_isDigit_of_isSpace {b : UInt8} (h : isSpace b = true) : isDigit b = false := by
  rw [isSpace, Bool.or_eq_true, decide_eq_true_iff, Bool.and_eq_true, decide_eq_true_iff,
    decide_eq_true_iff] at h
  rw [isDigit, Bool.and_eq_false_iff, decide_eq_false_iff_not]
  left
  rcases h with rfl | ⟨-, h⟩
  · decide
  · intro hle
    exact absurd (UInt8.le_trans hle h) (by decide)

theorem splitSign_append (ht : t ≠ []) (rest : List UInt8) :
    splitSign (t ++ rest) = ((splitSign t).1, (splitSign t).2 ++ rest) := by
  obtain ⟨b, t, rfl⟩ := List.exists_cons_of_ne_nil ht
  rw [List.cons_append, splitSign, splitSign]
  split
  · rfl
  · split <;> rfl

theorem FirstToken.scanInt_eq (h : FirstToken s t rest) {v : Int} (hv : intValue t = some v) :
    scanInt s = (some (.int v), rest) := by
  rw [intValue] at hv
  split at hv
  · next hok =>
    have hw : ∀ b ∈ (splitSign t).2, isDigit b = true := List.all_eq_true.mp hok.2
    have hrest : ∀ b ∈ rest.head?, isDigit b = false := fun b hb =>
      not_isDigit_of_isSpace (h.ends b hb)
    simp only [scanInt, h.split, splitSign_append h.nonempty, takeWhile_append_eq hw hrest,
      dropWhile_append_eq hw hrest, if_neg hok.1, Option.some.inj hv]
  · cases hv

/-- A conversion that can use a token takes it and no more. -/
theorem Conversion.scan_of_read {c : Conversion} {v : Value} (h : tokens s = t :: ts)
    (hc : c.read t = some v) : ∃ rest, c.scan s = (some v, rest) ∧ tokens rest = ts := by
  obtain ⟨rest, hf, hts⟩ := firstToken_of_tokens h
  refine ⟨rest, ?_, hts⟩
  cases c with
  | word =>
      rw [← Option.some.inj hc]
      exact hf.scanWord_eq
  | int =>
      obtain ⟨n, hn, rfl⟩ := Option.map_eq_some_iff.mp hc
      exact hf.scanInt_eq hn

/-- A format that takes one token for each conversion reads them from the stream. -/
theorem scan_of_readTokens {cs : List Conversion} {vs : List Value}
    (h : readTokens cs (tokens s) = some (vs, ts)) :
    ∃ rest, scan cs s = (vs, rest) ∧ tokens rest = ts := by
  induction cs generalizing s vs with
  | nil =>
      rw [readTokens, Option.some.injEq, Prod.mk.injEq] at h
      exact ⟨s, by rw [scan, h.1], h.2⟩
  | cons c cs ih =>
      cases htok : tokens s with
      | nil =>
          rw [htok] at h
          cases h
      | cons t ts' =>
          rw [htok, readTokens] at h
          split at h
          · next v r hv hr =>
            rw [Option.some.injEq, Prod.mk.injEq] at h
            obtain ⟨rest, hscan, hrest⟩ := c.scan_of_read htok hv
            have hread : readTokens cs (tokens rest) = some (r.1, ts) := by
              rw [hrest, hr, ← h.2]
            obtain ⟨rest', hscan', hrest'⟩ := ih hread
            refine ⟨rest', ?_, hrest'⟩
            rw [scan, hscan]
            simp only [hscan', h.1]
          · cases h

/-- A format uses up as many tokens as it has conversions. -/
theorem length_of_readTokens {cs : List Conversion} {toks : List (List UInt8)} {vs : List Value}
    (h : readTokens cs toks = some (vs, ts)) : toks.length = cs.length + ts.length := by
  induction cs generalizing toks vs with
  | nil =>
      rw [readTokens, Option.some.injEq, Prod.mk.injEq] at h
      rw [h.2, List.length_nil, Nat.zero_add]
  | cons c cs ih =>
      cases toks with
      | nil => cases h
      | cons t toks =>
          rw [readTokens] at h
          split at h
          · next v r hv hr =>
            rw [Option.some.injEq, Prod.mk.injEq] at h
            have hlen := ih (hr.trans (congrArg some (Prod.ext rfl h.2)))
            rw [List.length_cons, List.length_cons, hlen]
            omega
          · cases h

/-- `%s` reads the first token, if there is one. -/
theorem scan_word (s : List UInt8) : (scan [.word] s).1 = ((tokens s).head?.map .word).toList := by
  rcases firstToken_or_nil s with ⟨hs, hnil⟩ | ⟨t, rest, hf⟩
  · simp [scan, Conversion.scan, scanWord, hs, hnil]
  · simp [scan, Conversion.scan, hf.scanWord_eq, hf.tokens_eq]

/-- `%d` reads an integer or nothing. -/
theorem scan_int_cases (s : List UInt8) :
    (scan [.int] s).1 = [] ∨ ∃ v, (scan [.int] s).1 = [.int v] := by
  simp only [scan, Conversion.scan, scanInt]
  by_cases h : (splitSign (s.dropWhile isSpace)).2.takeWhile isDigit = []
  · exact Or.inl (by rw [if_pos h])
  · exact Or.inr ⟨_, by rw [if_neg h]⟩

/-! ## Streams with the same tokens -/

/-- What a conversion leaves of a token stands in front of the other tokens. -/
theorem FirstToken.tokens_append (h : FirstToken s t rest) {u : List UInt8} (hu : u <:+ t) :
    tokens (u ++ rest) = if u = [] then tokens rest else u :: tokens rest := by
  split
  · next hnil => rw [hnil, List.nil_append]
  · next hne =>
    refine FirstToken.tokens_eq ⟨?_, hne, fun b hb => h.solid b (hu.subset hb), h.ends⟩
    obtain ⟨b, u', rfl⟩ := List.exists_cons_of_ne_nil hne
    rw [List.cons_append, List.dropWhile_cons_of_neg]
    rw [h.solid b (hu.subset List.mem_cons_self)]
    exact Bool.false_ne_true

theorem splitSign_suffix (t : List UInt8) : (splitSign t).2 <:+ t := by
  rw [splitSign.eq_def]
  split
  · exact List.suffix_refl _
  · split_ifs
    · exact List.suffix_cons _ _
    · exact List.suffix_cons _ _
    · exact List.suffix_refl _

theorem takeWhile_append_of_ends {p : UInt8 → Bool} (hrest : ∀ b ∈ rest.head?, p b = false)
    (u : List UInt8) : (u ++ rest).takeWhile p = u.takeWhile p ∧
      (u ++ rest).dropWhile p = u.dropWhile p ++ rest := by
  induction u with
  | nil =>
      have hnil : ∀ b ∈ ([] : List UInt8), p b = true := fun b hb => absurd hb List.not_mem_nil
      exact ⟨takeWhile_append_eq hnil hrest, dropWhile_append_eq hnil hrest⟩
  | cons b u ih =>
      by_cases hb : p b = true
      · rw [List.cons_append, List.takeWhile_cons_of_pos hb, List.dropWhile_cons_of_pos hb,
          List.takeWhile_cons_of_pos hb, List.dropWhile_cons_of_pos hb, ih.1, ih.2]
        exact ⟨rfl, rfl⟩
      · rw [List.cons_append, List.takeWhile_cons_of_neg hb, List.dropWhile_cons_of_neg hb,
          List.takeWhile_cons_of_neg hb, List.dropWhile_cons_of_neg hb]
        exact ⟨rfl, rfl⟩

/-- What `%d` makes of the first token, and what it leaves of it. -/
def intPrefix (t : List UInt8) : Option Value × List UInt8 :=
  let s := splitSign t
  if s.2.takeWhile isDigit = [] then (none, s.2)
  else (some (.int (s.1 * decimal (s.2.takeWhile isDigit))), s.2.dropWhile isDigit)

theorem FirstToken.scanInt_prefix (h : FirstToken s t rest) :
    scanInt s = ((intPrefix t).1, (intPrefix t).2 ++ rest) := by
  have hends : ∀ b ∈ rest.head?, isDigit b = false := fun b hb =>
    not_isDigit_of_isSpace (h.ends b hb)
  obtain ⟨htake, hdrop⟩ := takeWhile_append_of_ends hends (splitSign t).2
  simp only [scanInt, intPrefix, h.split, splitSign_append h.nonempty, htake, hdrop]
  split <;> rfl

theorem intPrefix_suffix (t : List UInt8) : (intPrefix t).2 <:+ t := by
  simp only [intPrefix]
  split
  · exact splitSign_suffix t
  · exact (List.dropWhile_suffix _).trans (splitSign_suffix t)

/-- A conversion sees the tokens of a stream only. -/
theorem Conversion.scan_congr (c : Conversion) (h : tokens s = tokens t) :
    (c.scan s).1 = (c.scan t).1 ∧ tokens (c.scan s).2 = tokens (c.scan t).2 := by
  rcases firstToken_or_nil s with ⟨hs, hnil⟩ | ⟨w, rest, hf⟩
  · rcases firstToken_or_nil t with ⟨ht, -⟩ | ⟨w', rest', hf'⟩
    · cases c <;> simp [Conversion.scan, scanWord, scanInt, hs, ht]
    · rw [hnil, hf'.tokens_eq] at h
      cases h
  · rw [hf.tokens_eq] at h
    obtain ⟨rest', hf', hrest⟩ := firstToken_of_tokens h.symm
    cases c with
    | word =>
        rw [Conversion.scan, hf.scanWord_eq, hf'.scanWord_eq]
        exact ⟨rfl, hrest.symm⟩
    | int =>
        rw [Conversion.scan, hf.scanInt_prefix, hf'.scanInt_prefix,
          hf.tokens_append (intPrefix_suffix w), hf'.tokens_append (intPrefix_suffix w), hrest]
        exact ⟨rfl, rfl⟩

/-- A format sees the tokens of a stream only. -/
theorem scan_congr (cs : List Conversion) (h : tokens s = tokens t) :
    (scan cs s).1 = (scan cs t).1 ∧ tokens (scan cs s).2 = tokens (scan cs t).2 := by
  induction cs generalizing s t with
  | nil => exact ⟨rfl, h⟩
  | cons c cs ih =>
      obtain ⟨hvalue, hrest⟩ := c.scan_congr h
      obtain ⟨hvalues, hrest'⟩ := ih hrest
      simp only [scan]
      generalize c.scan s = x at hvalue hrest hvalues hrest'
      generalize c.scan t = y at hvalue hrest hvalues hrest'
      obtain ⟨v, s'⟩ := x
      obtain ⟨v', t'⟩ := y
      obtain rfl : v = v' := hvalue
      cases v with
      | none => exact ⟨rfl, hrest⟩
      | some v => exact ⟨congrArg (v :: ·) hvalues, hrest'⟩

end Scanf
end ProcSched
