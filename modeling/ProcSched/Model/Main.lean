/-
  ProcSched.Model.Main

  main.c: reading the input file and dispatch on the policy word.

  main reads into memory it has not written before, and looks at it whether
  `fscanf` has stored there or not; `Memory` is what it finds.  A store that does
  not end inside its object, and a number that no `int` holds, are undefined
  behaviour, after which nothing is said.
-/

import ProcSched.Lib.Bytes
import ProcSched.Lib.Scanf
import ProcSched.Model.Policy

namespace ProcSched

/-- A string of the program, a character for each byte. -/
def text (bs : List UInt8) : String := String.ofList (bs.map fun b => Char.ofNat b.toNat)

/-- The policy words main compares with. -/
def Policy.word : Policy → List UInt8
  | psjf => [80, 83, 74, 70]
  | rr => [82, 82]
  | sjf => [83, 74, 70]
  | fifo => [70, 73, 70, 79]

namespace Main

/-- Memory before main has written to it. -/
structure Memory where
  /-- `char policy[16]` -/
  policy : List UInt8
  policy_length : policy.length = 16
  /-- `int n_proc` -/
  nProc : List UInt8
  nProc_length : nProc.length = 4
  /-- the object `malloc` returns, without any bytes for NULL -/
  malloc : ℕ → List UInt8
  malloc_length : ∀ size, malloc size ≠ [] → (malloc size).length = size

/-- The result of a run of main. -/
inductive Result where
  /-- `exit(1)`: the file cannot be opened -/
  | exit
  /-- `policy not supported` is printed and main returns -/
  | unsupported
  /-- the scheduler is called -/
  | schedule (P : Policy) (nProc : Int) (proc : List Process)
  /-- undefined behaviour while reading -/
  | undefined
  deriving DecidableEq

/-! ## Objects -/

/-- The bytes of an `int`. -/
def intBytes (v : Int) : List UInt8 := Bytes.littleEndian 4 (v % 0x100000000).toNat

/-- The `int` at offset `a`. -/
def loadInt (mem : List UInt8) (a : ℕ) : Int := int32 (Bytes.ofLittleEndian (Bytes.load mem a 4))

/-- `sizeof(struct process)` -/
def sizeofProcess : ℕ := 36

/-- `proc[i]`, with the fields of `struct process` at their offsets. -/
def loadProcess (mem : List UInt8) (i : ℕ) : Process where
  name := text (Bytes.cString mem (sizeofProcess * i))
  ready := loadInt mem (sizeofProcess * i + 20)
  exec := loadInt mem (sizeofProcess * i + 24)
  waiting := loadInt mem (sizeofProcess * i + 28)
  pid := loadInt mem (sizeofProcess * i + 32)

/-- The first `n` entries of the table. -/
def loadTable (mem : List UInt8) (n : ℕ) : List Process := (List.range n).map (loadProcess mem)

/-! ## fscanf -/

/-- What a conversion stores at offset `a`: a word with its terminator, an
    `int`. -/
def storeValue (mem : List UInt8) (a : ℕ) : Scanf.Value → Option (List UInt8)
  | .word w => Bytes.store mem a (w ++ [0])
  | .int v => if IsInt v then Bytes.store mem a (intBytes v) else none

/-- The values that were read go to the arguments in turn. -/
def storeValues : List UInt8 → List ℕ → List Scanf.Value → Option (List UInt8)
  | mem, a :: args, v :: vs => (storeValue mem a v).bind fun mem => storeValues mem args vs
  | mem, _, _ => some mem

/-- `fscanf` with arguments at offsets of one object: the object and the rest of
    the file. -/
def fscanf (format : List Scanf.Conversion) (args : List ℕ) (mem file : List UInt8) :
    Option (List UInt8 × List UInt8) :=
  (storeValues mem args (Scanf.scan format file).1).map fun mem =>
    (mem, (Scanf.scan format file).2)

/-- `"%s %d %d"` -/
def recordFormat : List Scanf.Conversion := [.word, .int, .int]

/-- `proc[i].name, &proc[i].ready, &proc[i].exec` -/
def recordArgs (i : ℕ) : List ℕ :=
  [sizeofProcess * i, sizeofProcess * i + 20, sizeofProcess * i + 24]

/-- The loop over the records, from index `i` on. -/
def readRecords : ℕ → ℕ → List UInt8 → List UInt8 → Option (List UInt8)
  | 0, _, proc, _ => some proc
  | n + 1, i, proc, file =>
    (fscanf recordFormat (recordArgs i) proc file).bind fun r => readRecords n (i + 1) r.1 r.2

/-! ## main -/

/-- The argument of `malloc`: `n_proc*sizeof(struct process)` in `size_t`. -/
def tableSize (nProc : Int) : ℕ := (nProc * sizeofProcess % 0x10000000000000000).toNat

/-- The chain of `strcmp`. -/
def dispatch (policy : List UInt8) (nProc : Int) (proc : List Process) : Result :=
  if Bytes.cString policy 0 = Policy.psjf.word then .schedule .psjf nProc proc
  else if Bytes.cString policy 0 = Policy.rr.word then .schedule .rr nProc proc
  else if Bytes.cString policy 0 = Policy.sjf.word then .schedule .sjf nProc proc
  else if Bytes.cString policy 0 = Policy.fifo.word then .schedule .fifo nProc proc
  else .unsupported

/-- `main`, with the contents of the file if it can be opened. -/
def main (m : Memory) : Option (List UInt8) → Result
  | none => .exit
  | some file =>
    Option.getD (do
      let (policy, file) ← fscanf [.word] [0] m.policy file
      let (nProc, file) ← fscanf [.int] [0] m.nProc file
      let n := loadInt nProc 0
      let proc ← readRecords n.toNat 0 (m.malloc (tableSize n)) file
      some (dispatch policy n (loadTable proc n.toNat))) .undefined

end Main
end ProcSched
