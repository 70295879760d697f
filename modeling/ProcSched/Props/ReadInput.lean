/-
  ProcSched.Props.ReadInput

  What main schedules.  A file that begins with a policy word, the number of
  records and the records themselves is read into exactly these records.  But
  main looks at no result of `fscanf` and at no number, so every other file that
  starts with one of the four words is scheduled too, or written outside the
  table; only a word that is not supported stops main.
-/

import ProcSched.Refine.Main

namespace ProcSched
namespace Main

open Scanf (scan tokens readTokens)

/-- The tokens begin with these records: a name that fits `name[20]` with its
    terminator, and two `int` values, for each. -/
def HoldsRecords : List (List UInt8) → List Record → Prop
  | _, [] => True
  | ts, r :: R => ∃ name ts',
      readTokens recordFormat ts = some ([.word name, .int r.ready, .int r.exec], ts') ∧
        name.length < 20 ∧ 0 ∉ name ∧ text name = r.name ∧ IsInt r.ready ∧ IsInt r.exec ∧
        HoldsRecords ts' R

/-- The file begins with the word of `P`, the number of the records and the
    records. -/
def Begins (file : List UInt8) (P : Policy) (R : List Record) : Prop :=
  ∃ ts, readTokens [.word, .int] (tokens file) = some ([.word P.word, .int R.length], ts) ∧
    IsInt R.length ∧ HoldsRecords ts R

/-- Of a file that begins with a workload main schedules exactly this workload, and
    on any other file it stops without scheduling anything. -/
def NeverHalfRead (m : Memory) (file : List UInt8) : Prop :=
  (∀ P R, Begins file P R → ∃ proc, main m (some file) = .schedule P R.length proc ∧
    proc.map Process.record = R) ∧
  ((¬ ∃ P R, Begins file P R) → main m (some file) = .unsupported)

variable {m : Memory} {file mem mem' rest : List UInt8} {P P' : Policy} {R R' : List Record}
  {ts : List (List UInt8)} {i j n : ℕ}

/-- A record is three tokens. -/
theorem HoldsRecords.length_le (h : HoldsRecords ts R) : 3 * R.length ≤ ts.length := by
  induction R generalizing ts with
  | nil => exact Nat.zero_le _
  | cons r R ih =>
      obtain ⟨name, ts', hread, -, -, -, -, -, hrest⟩ := h
      have hlen := Scanf.length_of_readTokens hread
      have hle := ih hrest
      simp only [recordFormat, List.length_cons, List.length_nil] at hlen ⊢
      omega

/-! ## The choice of the scheduler -/

theorem dispatch_of_eq {policy : List UInt8} (h : Bytes.cString policy 0 = P.word) (n : Int)
    (proc : List Process) : dispatch policy n proc = .schedule P n proc := by
  rw [dispatch, h]
  cases P <;> rfl

theorem dispatch_of_ne {policy : List UInt8} (h : ∀ P : Policy, Bytes.cString policy 0 ≠ P.word)
    (n : Int) (proc : List Process) : dispatch policy n proc = .unsupported := by
  rw [dispatch, if_neg (h .psjf), if_neg (h .rr), if_neg (h .sjf), if_neg (h .fifo)]

/-! ## A record in the table -/

/-- The bytes of `proc[i]` that main reads are those of the record. -/
structure HoldsAt (mem : List UInt8) (i : ℕ) (r : Record) : Prop where
  name : ∃ w : List UInt8, w.length < 20 ∧ 0 ∉ w ∧ text w = r.name ∧
    Bytes.load mem (sizeofProcess * i) (w.length + 1) = w ++ [0]
  ready : Bytes.load mem (sizeofProcess * i + 20) 4 = intBytes r.ready
  exec : Bytes.load mem (sizeofProcess * i + 24) 4 = intBytes r.exec
  ready_isInt : IsInt r.ready
  exec_isInt : IsInt r.exec

theorem HoldsAt.record_eq {r : Record} (h : HoldsAt mem i r) : (loadProcess mem i).record = r := by
  obtain ⟨w, -, hw, htext, hload⟩ := h.name
  have hname : text (Bytes.cString mem (sizeofProcess * i)) = r.name := by
    rw [Bytes.cString_of_load hload hw, htext]
  have hready : loadInt mem (sizeofProcess * i + 20) = r.ready :=
    loadInt_of_load h.ready h.ready_isInt
  have hexec : loadInt mem (sizeofProcess * i + 24) = r.exec :=
    loadInt_of_load h.exec h.exec_isInt
  rw [Process.record, loadProcess, hname, hready, hexec]

/-- A change behind `proc[i]` leaves it alone. -/
theorem HoldsAt.congr {r : Record} (h : HoldsAt mem i r)
    (hkeep : ∀ b n, b + n ≤ sizeofProcess * (i + 1) → Bytes.load mem' b n = Bytes.load mem b n) :
    HoldsAt mem' i r := by
  have hsize : sizeofProcess * (i + 1) = sizeofProcess * i + 36 := rfl
  obtain ⟨w, hlen, hw, htext, hload⟩ := h.name
  refine ⟨⟨w, hlen, hw, htext, ?_⟩, ?_, ?_, h.ready_isInt, h.exec_isInt⟩
  · rw [hkeep _ _ (by omega), hload]
  · rw [hkeep _ _ (by omega), h.ready]
  · rw [hkeep _ _ (by omega), h.exec]

/-- The three values of a record go to the fields of `proc[i]`. -/
theorem storeValues_record {r : Record} {w : List UInt8} (hlen : w.length < 20) (hw : 0 ∉ w)
    (htext : text w = r.name) (hready : IsInt r.ready) (hexec : IsInt r.exec)
    (hmem : sizeofProcess * (i + 1) ≤ mem.length) :
    ∃ mem', storeValues mem (recordArgs i) [.word w, .int r.ready, .int r.exec] = some mem' ∧
      mem'.length = mem.length ∧ HoldsAt mem' i r ∧
      ∀ b n, b + n ≤ sizeofProcess * i → Bytes.load mem' b n = Bytes.load mem b n := by
  have hsize : sizeofProcess * (i + 1) = sizeofProcess * i + 36 := rfl
  have hw' : (w ++ [0]).length = w.length + 1 := List.length_append
  -- one store after the other, each behind the last
  have hint : ∀ v, (intBytes v).length = 4 := length_intBytes
  obtain ⟨mem₁, h₁⟩ := Bytes.exists_store
    (show sizeofProcess * i + (w ++ [0]).length ≤ mem.length by omega)
  have hlen₁ := Bytes.length_of_store h₁
  obtain ⟨mem₂, h₂⟩ := Bytes.exists_store
    (show sizeofProcess * i + 20 + (intBytes r.ready).length ≤ mem₁.length by rw [hint]; omega)
  have hlen₂ := Bytes.length_of_store h₂
  obtain ⟨mem₃, h₃⟩ := Bytes.exists_store
    (show sizeofProcess * i + 24 + (intBytes r.exec).length ≤ mem₂.length by rw [hint]; omega)
  refine ⟨mem₃, ?_, by rw [Bytes.length_of_store h₃, hlen₂, hlen₁], ?_, fun b n hb => ?_⟩
  · simp only [recordArgs, storeValues, storeValue, if_pos hready, if_pos hexec, h₁, h₂, h₃,
      Option.bind_some]
  · have hl₂ := Bytes.load_of_store h₂
    have hl₃ := Bytes.load_of_store h₃
    rw [length_intBytes] at hl₂ hl₃
    refine ⟨⟨w, hlen, hw, htext, ?_⟩, ?_, hl₃, hready, hexec⟩
    · rw [Bytes.load_of_store_of_disjoint h₃ (by omega),
        Bytes.load_of_store_of_disjoint h₂ (by omega), ← hw', Bytes.load_of_store h₁]
    · rw [Bytes.load_of_store_of_disjoint h₃ (by omega), hl₂]
  · rw [Bytes.load_of_store_of_disjoint h₃ (by omega),
      Bytes.load_of_store_of_disjoint h₂ (by omega), Bytes.load_of_store_of_disjoint h₁ (by omega)]

/-! ## All records -/

theorem readRecords_of_holds (hts : HoldsRecords (tokens file) R)
    (hmem : sizeofProcess * (i + R.length) ≤ mem.length) :
    ∃ mem', readRecords R.length i mem file = some mem' ∧
      (∀ b n, b + n ≤ sizeofProcess * i → Bytes.load mem' b n = Bytes.load mem b n) ∧
      ∀ j (hj : j < R.length), HoldsAt mem' (i + j) R[j] := by
  induction R generalizing i mem file with
  | nil => exact ⟨mem, rfl, fun _ _ _ => rfl, fun j hj => absurd hj (Nat.not_lt_zero j)⟩
  | cons r R ih =>
      obtain ⟨name, ts', hread, hlen, hname, htext, hready, hexec, hrest⟩ := hts
      obtain ⟨rest, hscan, rfl⟩ := Scanf.scan_of_readTokens hread
      have hle : sizeofProcess * (i + 1) ≤ sizeofProcess * (i + (r :: R).length) :=
        Nat.mul_le_mul_left _ (by rw [List.length_cons]; omega)
      obtain ⟨mem₁, hstore, hlen₁, hat, hkeep⟩ :=
        storeValues_record hlen hname htext hready hexec (Nat.le_trans hle hmem)
      have hfscanf : fscanf recordFormat (recordArgs i) mem file = some (mem₁, rest) :=
        fscanf_eq_some.mpr ⟨by rw [hscan, hstore], by rw [hscan]⟩
      have hmem₁ : sizeofProcess * (i + 1 + R.length) ≤ mem₁.length := by
        rw [hlen₁, Nat.add_assoc, Nat.add_comm 1]
        exact hmem
      obtain ⟨mem', hrec, hkeep', hat'⟩ := ih hrest hmem₁
      refine ⟨mem', ?_, fun b n hb => ?_, fun j hj => ?_⟩
      · rw [List.length_cons, readRecords, hfscanf, Option.bind_some, hrec]
      · have hstep : sizeofProcess * i ≤ sizeofProcess * (i + 1) :=
          Nat.mul_le_mul_left _ (Nat.le_succ i)
        rw [hkeep' b n (by omega), hkeep b n hb]
      · cases j with
        | zero => exact hat.congr hkeep'
        | succ j =>
            have hj' := hat' j (by simpa using hj)
            rwa [Nat.add_assoc, Nat.add_comm 1] at hj'

/-! ## Files that begin with a workload -/

/-- The first two tokens of such a file. -/
theorem Begins.tokens_eq (h : Begins file P R) : ∃ t ts, tokens file = P.word :: t :: ts ∧
    Scanf.intValue t = some (R.length : Int) ∧ IsInt R.length ∧ HoldsRecords ts R := by
  obtain ⟨ts, hread, hint, hR⟩ := h
  generalize tokens file = toks at hread
  match toks, hread with
  | [], hread => cases hread
  | [w], hread => cases hread
  | w :: t :: ts', hread =>
    simp only [readTokens, Scanf.Conversion.read] at hread
    cases hv : Scanf.intValue t with
    | none =>
        rw [hv] at hread
        cases hread
    | some v =>
        simp only [hv, Option.map_some, Option.some.injEq, Prod.mk.injEq, List.cons.injEq,
          Scanf.Value.word.injEq, Scanf.Value.int.injEq, and_true] at hread
        obtain ⟨⟨rfl, rfl⟩, rfl⟩ := hread
        exact ⟨t, ts', rfl, hv, hint, hR⟩

/-- What main reads of the first line. -/
structure Heading (m : Memory) (file : List UInt8) (P : Policy) (R : List Record) : Prop where
  policy : policyText m file = P.word
  policy_fits : ∀ w ∈ (tokens file).head?, w.length < 16
  count : (scan [.int] (countFile file)).1 = [.int R.length]
  records : HoldsRecords (tokens (recordsFile file)) R
  isInt : IsInt R.length

theorem Begins.heading (m : Memory) (h : Begins file P R) : Heading m file P R := by
  obtain ⟨t, ts, htokens, hv, hint, hR⟩ := h.tokens_eq
  have hword : (tokens file).head? = some P.word := by rw [htokens]; rfl
  have hread₁ : readTokens [.word] (tokens file) = some ([.word P.word], t :: ts) := by
    rw [htokens]
    rfl
  obtain ⟨file₁, hscan₁, htok₁⟩ := Scanf.scan_of_readTokens hread₁
  have hread₂ : readTokens [.int] (tokens file₁) = some ([.int R.length], ts) := by
    rw [htok₁]
    simp only [readTokens, Scanf.Conversion.read, hv, Option.map_some]
  obtain ⟨file₂, hscan₂, htok₂⟩ := Scanf.scan_of_readTokens hread₂
  have hcount : countFile file = file₁ := by rw [countFile, hscan₁]
  have hrecords : recordsFile file = file₂ := by rw [recordsFile, hcount, hscan₂]
  refine ⟨?_, fun w hw => ?_, by rw [hcount, hscan₂], by rw [hrecords, htok₂]; exact hR, hint⟩
  · rw [policyText, hword]
    show P.word.takeWhile (· ≠ 0) = P.word
    cases P <;> decide
  · rw [hword, Option.mem_some_iff] at hw
    rw [← hw]
    cases P <;> decide

theorem Heading.countRead_eq (h : Heading m file P R) :
    countRead m (countFile file) = R.length := by
  rw [countRead, h.count]

theorem Heading.tableSize_eq (h : Heading m file P R) :
    tableSize R.length = sizeofProcess * R.length := by
  have hle := h.isInt.2
  simp only [intMax] at hle
  have hsize : ((R.length : Int) * sizeofProcess) % 0x10000000000000000 =
      R.length * sizeofProcess := by
    simp only [sizeofProcess]
    omega
  rw [tableSize, hsize, sizeofProcess]
  omega

/-- They are scheduled, if there is memory for them. -/
theorem main_of_begins (h : Begins file P R)
    (hmalloc : R = [] ∨ m.malloc (sizeofProcess * R.length) ≠ []) :
    ∃ proc, main m (some file) = .schedule P R.length proc ∧ proc.map Process.record = R := by
  have hH := h.heading m
  obtain ⟨⟨policy, rest⟩, hpolicy⟩ :=
    Option.isSome_iff_exists.mp (fscanf_policy_isSome.mpr hH.policy_fits)
  obtain rfl := (fscanf_eq_some.mp hpolicy).2
  have hcount : (fscanf [.int] [0] m.nProc (countFile file)).isSome := by
    rw [fscanf_count_isSome, hH.count]
    intro v hv
    obtain rfl : v = R.length := by simpa using hv
    exact hH.isInt
  obtain ⟨⟨nProc, rest⟩, hcount⟩ := Option.isSome_iff_exists.mp hcount
  obtain rfl := (fscanf_eq_some.mp hcount).2
  have hmem : sizeofProcess * (0 + R.length) ≤ (m.malloc (tableSize R.length)).length := by
    rw [Nat.zero_add, hH.tableSize_eq]
    rcases hmalloc with hnil | hne
    · rw [hnil]
      exact Nat.zero_le _
    · rw [m.malloc_length _ hne]
  obtain ⟨proc, hproc, -, hat⟩ := readRecords_of_holds hH.records hmem
  refine ⟨loadTable proc R.length, ?_, ?_⟩
  · rw [main_eq_dispatch hpolicy hcount hH.countRead_eq (by rw [Int.toNat_natCast]; exact hproc),
      dispatch_of_eq (by rw [cString_of_fscanf hpolicy, hH.policy]), Int.toNat_natCast]
  · apply List.ext_getElem
    · rw [loadTable, List.length_map, List.length_map, List.length_range]
    · intro j hj hj'
      have hrec := (hat j hj').record_eq
      rw [Nat.zero_add] at hrec
      simp only [loadTable, List.getElem_map, List.getElem_range, hrec]

/-- Without memory for them their names are written to address NULL. -/
theorem main_of_null (h : Begins file P R) (hR : R ≠ [])
    (hmalloc : m.malloc (sizeofProcess * R.length) = []) : main m (some file) = .undefined := by
  have hH := h.heading m
  refine main_of_not_readsFit fun hfit => ?_
  obtain ⟨r, R', rfl⟩ := List.exists_cons_of_ne_nil hR
  obtain ⟨name, ts, hread, -⟩ := hH.records
  obtain ⟨rest, hscan, -⟩ := Scanf.scan_of_readTokens hread
  have hfirst := hfit.records 0 (by rw [hH.countRead_eq]; simp) (0, .word name) (by
    rw [recordFile, hscan]
    simp [recordArgs])
  rw [hH.countRead_eq, hH.tableSize_eq, hmalloc, ValueFits] at hfirst
  exact absurd hfirst (Nat.not_lt_zero _)

/-! ## All files -/

/-- Any file behind a supported word is scheduled, if what it holds fits. -/
theorem main_of_word (hfit : ReadsFit m file) (hword : policyText m file = P.word) :
    ∃ n proc, main m (some file) = .schedule P n proc := by
  obtain ⟨policy, proc, hpolicy, hmain⟩ := main_of_readsFit hfit
  exact ⟨_, _, hmain.trans (dispatch_of_eq (hpolicy.trans hword) _ _)⟩

theorem main_eq_unsupported_iff : main m (some file) = .unsupported ↔
    (∀ P : Policy, policyText m file ≠ P.word) ∧ ReadsFit m file := by
  constructor
  · intro h
    have hfit : ReadsFit m file := by
      by_contra hnot
      rw [main_of_not_readsFit hnot] at h
      cases h
    refine ⟨fun P hword => ?_, hfit⟩
    obtain ⟨n, proc, hmain⟩ := main_of_word hfit hword
    rw [hmain] at h
    cases h
  · rintro ⟨hword, hfit⟩
    obtain ⟨policy, proc, hpolicy, hmain⟩ := main_of_readsFit hfit
    rw [hmain, dispatch_of_ne fun P => by rw [hpolicy]; exact hword P]

/-- A file begins with one number of records. -/
theorem Begins.length_eq (h : Begins file P R) (h' : Begins file P' R') :
    R.length = R'.length := by
  obtain ⟨ts, hread, -⟩ := h
  obtain ⟨ts', hread', -⟩ := h'
  rw [hread, Option.some.injEq, Prod.mk.injEq] at hread'
  have hvalues := hread'.1
  simp only [List.cons.injEq, Scanf.Value.int.injEq, Int.natCast_inj, and_true] at hvalues
  exact hvalues.2

/-- main schedules whole workloads only, exactly for the files that begin with one,
    if there is memory for the table, and for the files behind a word that is not
    supported, if what they hold fits. -/
theorem neverHalfRead_iff (m : Memory) (file : List UInt8) : NeverHalfRead m file ↔
    (∃ P R, Begins file P R ∧ (R = [] ∨ m.malloc (sizeofProcess * R.length) ≠ [])) ∨
      (∀ P : Policy, policyText m file ≠ P.word) ∧ ReadsFit m file := by
  constructor
  · rintro ⟨hread, hstop⟩
    by_cases hbegins : ∃ P R, Begins file P R
    · obtain ⟨P, R, h⟩ := hbegins
      refine Or.inl ⟨P, R, h, ?_⟩
      by_contra hnot
      obtain ⟨hR, hnull⟩ := not_or.mp hnot
      obtain ⟨proc, hmain, -⟩ := hread P R h
      rw [main_of_null h hR (not_not.mp hnull)] at hmain
      cases hmain
    · exact Or.inr (main_eq_unsupported_iff.mp (hstop hbegins))
  · rintro (⟨P, R, h, hmalloc⟩ | hword)
    · refine ⟨fun P' R' h' => main_of_begins h' ?_, fun hnot => absurd ⟨P, R, h⟩ hnot⟩
      have hlen := h.length_eq h'
      rw [← hlen]
      refine hmalloc.imp (fun hnil => ?_) id
      rw [← List.length_eq_zero_iff, ← hlen, hnil, List.length_nil]
    · refine ⟨fun P R h => absurd (h.heading m).policy (hword.1 P), fun _ => ?_⟩
      exact main_eq_unsupported_iff.mpr hword

/-- Memory that holds zeros everywhere. -/
def zeroMemory : Memory where
  policy := List.replicate 16 0
  policy_length := List.length_replicate
  nProc := List.replicate 4 0
  nProc_length := List.length_replicate
  malloc size := if size ≤ 4096 then List.replicate size 0 else []
  malloc_length size h := by
    split
    · exact List.length_replicate
    · next hsize => exact absurd (if_neg hsize) h

/-- `FIFO 2 P1 0 5`: one record of two. -/
def shortFile : List UInt8 :=
  [70, 73, 70, 79, 32, 50, 32, 80, 49, 32, 48, 32, 53]

/-- main schedules two processes, of which it has read one. -/
theorem shortFile_not_neverHalfRead :
    main zeroMemory (some shortFile) = .schedule .fifo 2 [⟨"P1", 0, 5, 0, 0⟩, ⟨"", 0, 0, 0, 0⟩] ∧
      ¬ NeverHalfRead zeroMemory shortFile := by
  have hmain : main zeroMemory (some shortFile) =
      .schedule .fifo 2 [⟨"P1", 0, 5, 0, 0⟩, ⟨"", 0, 0, 0, 0⟩] := by decide +kernel
  refine ⟨hmain, fun h => ?_⟩
  have htokens : tokens shortFile = [[70, 73, 70, 79], [50], [80, 49], [48], [53]] := by decide
  have hnot : ¬ ∃ P R, Begins shortFile P R := by
    rintro ⟨P, R, hbegins⟩
    obtain ⟨t, ts, htok, hv, -, hR⟩ := hbegins.tokens_eq
    rw [htokens] at htok
    simp only [List.cons.injEq] at htok
    obtain ⟨-, rfl, rfl⟩ := htok
    have htwo : Scanf.intValue [50] = some 2 := by decide
    have hle := hR.length_le
    rw [htwo, Option.some.injEq] at hv
    simp only [List.length_cons, List.length_nil] at hle
    omega
  have hstop := h.2 hnot
  rw [hmain] at hstop
  cases hstop

end Main
end ProcSched
