/-
  ProcSched.Refine.Main

  What main has in memory when it has read the file.  All its stores end inside
  their objects exactly if the values that were read fit there (`ReadsFit`), which
  is a matter of the file and of the sizes of the objects.
-/

import ProcSched.Model.Main

namespace ProcSched
namespace Main

open Scanf (scan tokens)

variable {mem mem' file rest bs : List UInt8} {a b i k n size : ℕ} {v : Int}

/-! ## Integers -/

@[simp] theorem length_intBytes (v : Int) : (intBytes v).length = 4 :=
  Bytes.length_littleEndian 4 _

/-- An `int` is read back as it was stored. -/
theorem loadInt_of_load (h : Bytes.load mem a 4 = intBytes v) (hv : IsInt v) :
    loadInt mem a = v := by
  simp only [IsInt, intMax] at hv
  have hmod : (((v % 0x100000000).toNat % 256 ^ 4 : ℕ) : Int) = v % 0x100000000 := by
    have h₁ := Int.emod_nonneg v (show (0x100000000 : Int) ≠ 0 by decide)
    have h₂ := Int.emod_lt_of_pos v (show (0 : Int) < 0x100000000 by decide)
    rw [Nat.mod_eq_of_lt (by omega), Int.toNat_of_nonneg h₁]
  have hwrap : (v % 0x100000000).bmod 0x100000000 = v.bmod 0x100000000 :=
    Int.emod_bmod v 0x100000000
  rw [loadInt, h, intBytes, Bytes.ofLittleEndian_littleEndian, hmod, int32, hwrap,
    Int.bmod_eq_of_le] <;> omega

/-! ## Stores that fit -/

/-- A value that an argument at offset `a` of an object can take. -/
def ValueFits (size a : ℕ) : Scanf.Value → Prop
  | .word w => a + w.length < size
  | .int v => IsInt v ∧ a + 4 ≤ size

theorem storeValue_isSome (x : Scanf.Value) :
    (storeValue mem a x).isSome ↔ ValueFits mem.length a x := by
  cases x with
  | word w =>
      rw [storeValue, Bytes.store_isSome, List.length_append, ValueFits]
      exact Nat.lt_iff_add_one_le.symm
  | int v =>
      rw [storeValue, ValueFits]
      split
      · next hv => rw [Bytes.store_isSome, length_intBytes, and_iff_right hv]
      · next hv => simp [hv]

theorem length_storeValue {x : Scanf.Value} (h : storeValue mem a x = some mem') :
    mem'.length = mem.length := by
  cases x with
  | word w => exact Bytes.length_of_store h
  | int v =>
      rw [storeValue] at h
      split at h
      · exact Bytes.length_of_store h
      · cases h

theorem length_storeValues {args : List ℕ} {xs : List Scanf.Value}
    (h : storeValues mem args xs = some mem') : mem'.length = mem.length := by
  induction args generalizing mem xs with
  | nil =>
      rw [storeValues, Option.some.injEq] at h
      · rw [h]
      · simp
  | cons a args ih =>
      cases xs with
      | nil =>
          rw [storeValues, Option.some.injEq] at h
          · rw [h]
          · simp
      | cons x xs =>
          rw [storeValues] at h
          obtain ⟨mem₁, h₁, h₂⟩ := Option.bind_eq_some_iff.mp h
          exact (ih h₂).trans (length_storeValue h₁)

theorem storeValues_isSome (args : List ℕ) (xs : List Scanf.Value) :
    (storeValues mem args xs).isSome ↔ ∀ p ∈ args.zip xs, ValueFits mem.length p.1 p.2 := by
  induction args generalizing mem xs with
  | nil => simp [storeValues]
  | cons a args ih =>
      cases xs with
      | nil => simp [storeValues]
      | cons x xs =>
          rw [storeValues, List.zip_cons_cons, List.forall_mem_cons, ← storeValue_isSome]
          cases hx : storeValue mem a x with
          | none => simp
          | some mem₁ =>
              rw [Option.bind_some, ih, length_storeValue hx]
              simp

theorem fscanf_eq_some {format : List Scanf.Conversion} {args : List ℕ} :
    fscanf format args mem file = some (mem', rest) ↔
      storeValues mem args (scan format file).1 = some mem' ∧ (scan format file).2 = rest := by
  rw [fscanf, Option.map_eq_some_iff]
  constructor
  · rintro ⟨mem₁, h, he⟩
    obtain ⟨rfl, rfl⟩ := Prod.mk.inj he
    exact ⟨h, rfl⟩
  · rintro ⟨h, rfl⟩
    exact ⟨mem', h, rfl⟩

theorem fscanf_isSome (format : List Scanf.Conversion) (args : List ℕ) (mem file : List UInt8) :
    (fscanf format args mem file).isSome ↔
      ∀ p ∈ args.zip (scan format file).1, ValueFits mem.length p.1 p.2 := by
  rw [fscanf, Option.isSome_map, storeValues_isSome]

/-! ## The records -/

/-- The file in front of record `i`, the records starting at `file`. -/
def recordFile (file : List UInt8) : ℕ → List UInt8
  | 0 => file
  | i + 1 => recordFile (scan recordFormat file).2 i

theorem readRecords_isSome (n i : ℕ) (proc file : List UInt8) :
    (readRecords n i proc file).isSome ↔ ∀ j < n,
      ∀ p ∈ (recordArgs (i + j)).zip (scan recordFormat (recordFile file j)).1,
        ValueFits proc.length p.1 p.2 := by
  induction n generalizing i proc file with
  | zero => simp [readRecords]
  | succ n ih =>
      have hzero : (∀ j < n + 1, ∀ p ∈ (recordArgs (i + j)).zip
            (scan recordFormat (recordFile file j)).1, ValueFits proc.length p.1 p.2) ↔
          (fscanf recordFormat (recordArgs i) proc file).isSome ∧
            ∀ j < n, ∀ p ∈ (recordArgs (i + 1 + j)).zip
              (scan recordFormat (recordFile (scan recordFormat file).2 j)).1,
              ValueFits proc.length p.1 p.2 := by
        rw [fscanf_isSome]
        constructor
        · intro h
          refine ⟨h 0 (Nat.succ_pos n), fun j hj => ?_⟩
          have hj' := h (j + 1) (by omega)
          rwa [show i + (j + 1) = i + 1 + j by omega] at hj'
        · rintro ⟨h₀, h⟩ j hj
          cases j with
          | zero => exact h₀
          | succ j =>
              rw [show i + (j + 1) = i + 1 + j by omega]
              exact h j (by omega)
      rw [hzero, readRecords]
      cases hr : fscanf recordFormat (recordArgs i) proc file with
      | none => simp
      | some r =>
          obtain ⟨hstore, hrest⟩ := fscanf_eq_some.mp hr
          rw [Option.bind_some, ih, length_storeValues hstore, ← hrest]
          simp

/-! ## The policy word and the number of records -/

variable {m : Memory}

/-- The string in `policy` after it was read: the first token of the file up to a
    zero byte, or what was there before. -/
def policyText (m : Memory) (file : List UInt8) : List UInt8 :=
  match (tokens file).head? with
  | some w => w.takeWhile (· ≠ 0)
  | none => Bytes.cString m.policy 0

/-- The value of `n_proc` after it was read from `file`. -/
def countRead (m : Memory) (file : List UInt8) : Int :=
  match (scan [.int] file).1 with
  | [.int v] => v
  | _ => loadInt m.nProc 0

theorem cString_of_fscanf (h : fscanf [.word] [0] m.policy file = some (mem, rest)) :
    Bytes.cString mem 0 = policyText m file := by
  obtain ⟨hstore, -⟩ := fscanf_eq_some.mp h
  rw [Scanf.scan_word] at hstore
  rw [policyText]
  cases hhead : (tokens file).head? with
  | none =>
      rw [hhead] at hstore
      rw [← Option.some.inj hstore]
  | some w =>
      rw [hhead] at hstore
      obtain ⟨mem₁, h₁, h₂⟩ := Option.bind_eq_some_iff.mp hstore
      rw [← Option.some.inj h₂]
      exact Bytes.cString_of_store h₁

theorem loadInt_of_fscanf (h : fscanf [.int] [0] m.nProc file = some (mem, rest)) :
    loadInt mem 0 = countRead m file := by
  obtain ⟨hstore, -⟩ := fscanf_eq_some.mp h
  rw [countRead]
  rcases Scanf.scan_int_cases file with hnone | ⟨v, hv⟩
  · rw [hnone] at hstore ⊢
    rw [← Option.some.inj hstore]
  · rw [hv] at hstore ⊢
    obtain ⟨mem₁, h₁, h₂⟩ := Option.bind_eq_some_iff.mp hstore
    rw [← Option.some.inj h₂]
    rw [storeValue] at h₁
    split at h₁
    · next hint =>
      have hload := Bytes.load_of_store h₁
      rw [length_intBytes] at hload
      exact loadInt_of_load hload hint
    · cases h₁

/-! ## main -/

/-- The file behind the policy word. -/
def countFile (file : List UInt8) : List UInt8 := (scan [.word] file).2

/-- The file behind the number of records. -/
def recordsFile (file : List UInt8) : List UInt8 := (scan [.int] (countFile file)).2

/-- Nothing that is read is too large for the object it goes to: the policy word
    fits `policy[16]`, the names and numbers of the records end inside the table,
    and an `int` holds every number. -/
structure ReadsFit (m : Memory) (file : List UInt8) : Prop where
  policy : ∀ w ∈ (tokens file).head?, w.length < 16
  count : ∀ v, Scanf.Value.int v ∈ (scan [.int] (countFile file)).1 → IsInt v
  records : ∀ i < (countRead m (countFile file)).toNat,
    ∀ p ∈ (recordArgs i).zip (scan recordFormat (recordFile (recordsFile file) i)).1,
      ValueFits (m.malloc (tableSize (countRead m (countFile file)))).length p.1 p.2

theorem main_some (m : Memory) (file : List UInt8) : main m (some file) =
    ((fscanf [.word] [0] m.policy file).bind fun p =>
      (fscanf [.int] [0] m.nProc p.2).bind fun c =>
        (readRecords (loadInt c.1 0).toNat 0 (m.malloc (tableSize (loadInt c.1 0))) c.2).bind
          fun proc => some (dispatch p.1 (loadInt c.1 0)
            (loadTable proc (loadInt c.1 0).toNat))).getD .undefined := rfl

/-- main in its three reading steps. -/
theorem main_eq_dispatch {policy nProc proc : List UInt8} {n : Int}
    (hpolicy : fscanf [.word] [0] m.policy file = some (policy, countFile file))
    (hcount : fscanf [.int] [0] m.nProc (countFile file) = some (nProc, recordsFile file))
    (hn : countRead m (countFile file) = n)
    (hproc : readRecords n.toNat 0 (m.malloc (tableSize n)) (recordsFile file) = some proc) :
    main m (some file) = dispatch policy n (loadTable proc n.toNat) := by
  have hload := loadInt_of_fscanf hcount
  rw [hn] at hload
  rw [main_some, hpolicy, Option.bind_some, hcount, Option.bind_some, hload, hproc,
    Option.bind_some, Option.getD_some]

theorem fscanf_policy_isSome : (fscanf [.word] [0] m.policy file).isSome ↔
    ∀ w ∈ (tokens file).head?, w.length < 16 := by
  rw [fscanf_isSome, Scanf.scan_word]
  cases (tokens file).head? with
  | none => simp
  | some w => simp [ValueFits, m.policy_length]

theorem fscanf_count_isSome : (fscanf [.int] [0] m.nProc file).isSome ↔
    ∀ v, Scanf.Value.int v ∈ (scan [.int] file).1 → IsInt v := by
  rw [fscanf_isSome]
  rcases Scanf.scan_int_cases file with hnone | ⟨v, hv⟩
  · simp [hnone]
  · simp [hv, ValueFits, m.nProc_length]

theorem main_of_readsFit (h : ReadsFit m file) : ∃ policy proc,
    Bytes.cString policy 0 = policyText m file ∧
      main m (some file) = dispatch policy (countRead m (countFile file))
        (loadTable proc (countRead m (countFile file)).toNat) := by
  obtain ⟨⟨policy, rest⟩, hpolicy⟩ := Option.isSome_iff_exists.mp (fscanf_policy_isSome.mpr h.policy)
  obtain ⟨⟨nProc, rest'⟩, hcount⟩ := Option.isSome_iff_exists.mp (fscanf_count_isSome.mpr h.count)
  obtain rfl := (fscanf_eq_some.mp hpolicy).2
  obtain rfl := (fscanf_eq_some.mp hcount).2
  have hrecords := (readRecords_isSome (countRead m (countFile file)).toNat 0
    (m.malloc (tableSize (countRead m (countFile file)))) (recordsFile file)).mpr fun i hi => by
      rw [Nat.zero_add]
      exact h.records i hi
  obtain ⟨proc, hproc⟩ := Option.isSome_iff_exists.mp hrecords
  exact ⟨policy, proc, cString_of_fscanf hpolicy, main_eq_dispatch hpolicy hcount rfl hproc⟩

/-- A store outside its object leaves nothing to say about main. -/
theorem main_of_not_readsFit (h : ¬ ReadsFit m file) : main m (some file) = .undefined := by
  cases hpolicy : fscanf [.word] [0] m.policy file with
  | none => rw [main_some, hpolicy, Option.bind_none, Option.getD_none]
  | some r =>
      obtain ⟨policy, rest⟩ := r
      obtain rfl := (fscanf_eq_some.mp hpolicy).2
      cases hcount : fscanf [.int] [0] m.nProc (scan [.word] file).2 with
      | none =>
          rw [main_some, hpolicy, Option.bind_some, hcount, Option.bind_none, Option.getD_none]
      | some r =>
          obtain ⟨nProc, rest⟩ := r
          obtain rfl := (fscanf_eq_some.mp hcount).2
          have hload := loadInt_of_fscanf hcount
          cases hproc : readRecords (loadInt nProc 0).toNat 0
              (m.malloc (tableSize (loadInt nProc 0))) (scan [.int] (scan [.word] file).2).2 with
          | none =>
              rw [main_some, hpolicy, Option.bind_some, hcount, Option.bind_some, hproc,
                Option.bind_none, Option.getD_none]
          | some proc =>
              -- all three steps went through
              refine absurd ⟨?_, ?_, ?_⟩ h
              · rw [← fscanf_policy_isSome (m := m), hpolicy]
                rfl
              · rw [← fscanf_count_isSome (m := m), countFile, hcount]
                rfl
              · have hrecords := (readRecords_isSome _ 0 _ _).mp (by rw [hproc]; rfl)
                rw [hload] at hrecords
                intro i hi
                have hi' := hrecords i hi
                rwa [Nat.zero_add] at hi'

end Main
end ProcSched
