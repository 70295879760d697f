/-
  ProcSched.Props.InputFile

  From the bytes of an input file to the processes on the machine.  main sees a
  file only as its tokens, so it does not matter how the file is laid out.  And a
  workload that is written to a file is read back: main schedules its lines, and
  in whatever order scheduler and children run, the children that come of it have
  the names of the lines and count their units.
-/

import Mathlib.Data.List.Sort
import ProcSched.Lib.Printf
import ProcSched.Props.Interleaving
import ProcSched.Props.Memory
import ProcSched.Props.ReadInput

namespace ProcSched

/-! ## Layout -/

namespace Main

open Scanf (tokens scan numeral spaced)

variable {m : Memory} {file file' mem : List UInt8}

theorem fscanf_bind {α : Type} (format : List Scanf.Conversion) (args : List ℕ)
    (mem file : List UInt8) (f : List UInt8 × List UInt8 → Option α) :
    (fscanf format args mem file).bind f =
      (storeValues mem args (scan format file).1).bind fun mem =>
        f (mem, (scan format file).2) := by
  rw [fscanf, Option.bind_map]
  rfl

theorem readRecords_congr (n i : ℕ) (mem : List UInt8) (h : tokens file = tokens file') :
    readRecords n i mem file = readRecords n i mem file' := by
  induction n generalizing i mem file file' with
  | zero => rfl
  | succ n ih =>
      obtain ⟨hvalues, hrest⟩ := Scanf.scan_congr recordFormat h
      rw [readRecords, readRecords, fscanf_bind, fscanf_bind, hvalues]
      exact congrArg _ (funext fun mem => ih (i + 1) mem hrest)

/-- main makes the same of any two files with the same tokens, whatever these are. -/
theorem layout_irrelevant (m : Memory) (file file' : List UInt8)
    (h : tokens file = tokens file') : main m (some file) = main m (some file') := by
  obtain ⟨hword, hrest⟩ := Scanf.scan_congr [.word] h
  obtain ⟨hcount, hrest'⟩ := Scanf.scan_congr [.int] hrest
  rw [main_some, main_some, fscanf_bind, fscanf_bind, hword]
  refine congrArg (Option.getD · _) (congrArg _ (funext fun policy => ?_))
  simp only [fscanf_bind, hcount]
  refine congrArg _ (funext fun nProc => ?_)
  rw [readRecords_congr _ _ _ hrest']

/-- `shortFile` with a line for each of its tokens. -/
theorem layout_irrelevant_shortFile : main zeroMemory (some shortFile) =
    main zeroMemory (some [70, 73, 70, 79, 10, 50, 10, 80, 49, 10, 48, 10, 53, 10]) :=
  layout_irrelevant zeroMemory shortFile _ (by decide)

/-! ## Files -/

/-- A line of an input file: a name that fits `name[20]` with its terminator and
    two `int` values. -/
structure Line where
  name : List UInt8
  ready : Int
  exec : Int
  name_isToken : Scanf.IsToken name
  name_fits : name.length < 20
  name_text : 0 ∉ name
  ready_isInt : IsInt ready
  exec_isInt : IsInt exec

/-- A policy and the lines of the processes, as many as an `int` can count. -/
structure InputFile where
  policy : Policy
  lines : List Line
  length_isInt : IsInt lines.length

def Line.record (l : Line) : Record := ⟨text l.name, l.ready, l.exec⟩

/-- The words of a line, with a blank or the end of the line behind each. -/
def Line.words (l : Line) : List (List UInt8 × List UInt8) :=
  [(l.name, [32]), (numeral l.ready, [32]), (numeral l.exec, [10])]

namespace InputFile

variable (F : InputFile)

def records : List Record := F.lines.map Line.record

def words : List (List UInt8 × List UInt8) :=
  (F.policy.word, [10]) :: (numeral F.lines.length, [10]) :: F.lines.flatMap Line.words

/-- The file, a line for each process. -/
def render : List UInt8 := spaced F.words

theorem words_spec : ∀ x ∈ F.words, Scanf.IsToken x.1 ∧ (x.2 = [32] ∨ x.2 = [10]) := by
  intro x hx
  simp only [words, List.mem_cons, List.mem_flatMap] at hx
  rcases hx with rfl | rfl | ⟨l, -, hx⟩
  · refine ⟨⟨?_, ?_⟩, Or.inr rfl⟩ <;> cases F.policy <;> decide +kernel
  · exact ⟨Scanf.isToken_numeral F.lines.length, Or.inr rfl⟩
  · simp only [Line.words, List.mem_cons, List.not_mem_nil, or_false] at hx
    rcases hx with rfl | rfl | rfl
    · exact ⟨l.name_isToken, Or.inl rfl⟩
    · exact ⟨Scanf.isToken_numeral l.ready, Or.inl rfl⟩
    · exact ⟨Scanf.isToken_numeral l.exec, Or.inr rfl⟩

theorem tokens_render : tokens F.render = F.words.map Prod.fst := by
  refine Scanf.tokens_spaced (fun x hx => (F.words_spec x hx).1) fun x hx => ?_
  rcases (F.words_spec x hx).2 with h | h
  · rw [h]
    decide +kernel
  · rw [h]
    decide +kernel

theorem holdsRecords (ls : List Line) :
    HoldsRecords ((ls.flatMap Line.words).map Prod.fst) (ls.map Line.record) := by
  induction ls with
  | nil => trivial
  | cons l ls ih =>
      refine ⟨l.name, (ls.flatMap Line.words).map Prod.fst, ?_, l.name_fits, l.name_text, rfl,
        l.ready_isInt, l.exec_isInt, ih⟩
      simp [Line.words, recordFormat, Scanf.readTokens, Scanf.Conversion.read,
        Scanf.intValue_numeral, Line.record]

/-- A file with these tokens begins with these records, and ends with them. -/
theorem begins (h : tokens file = F.words.map Prod.fst) : Begins file F.policy F.records := by
  have hlen : F.records.length = F.lines.length := List.length_map ..
  refine ⟨(F.lines.flatMap Line.words).map Prod.fst, ?_, ?_, holdsRecords F.lines⟩
  · rw [h, hlen]
    simp [words, Scanf.readTokens, Scanf.Conversion.read, Scanf.intValue_numeral]
  · rw [hlen]
    exact F.length_isInt

end InputFile
end Main

/-! ## The machine -/

theorem makespan_of_records {V W : List Process}
    (h : V.map Process.record = W.map Process.record) : makespan V = makespan W := by
  have hpairs : ∀ U : List Process, pairsOf (readyOrder U) =
      ((U.map Process.record).insertionSort fun a b => a.ready ≤ b.ready).map
        fun r => (r.ready.toNat, r.exec.toNat) := fun U => by
    rw [readyOrder, ← List.map_insertionSort (fun a b : Process => a.ready ≤ b.ready) _
      Process.record U fun a _ b _ => Iff.rfl, List.map_map]
    rfl
  rw [makespan, makespan, hpairs, hpairs, h]

theorem stepCount_of_records {V W : List Process}
    (h : V.map Process.record = W.map Process.record) : stepCount V = stepCount W := by
  have hlen := congrArg List.length h
  rw [List.length_map, List.length_map] at hlen
  have hunits := congrArg (fun R => (R.map fun r => r.exec.toNat + 1).sum) h
  simp only [List.map_map] at hunits
  rw [stepCount, stepCount, makespan_of_records h, hlen]
  exact congrArg _ hunits

namespace Main

/-- main reads a workload from a file of any layout and calls the scheduler on it.
    However the scheduler and its children run, they go on until all of them have
    ended, and then there has been one child for each line of the file, with its
    name, and it has counted its units. -/
theorem runs_input_file (m : Memory) (F : InputFile) (file : List UInt8) (os : Os) (q : Qsort)
    (hfile : Scanf.tokens file = Scanf.tokens F.render)
    (hmalloc : m.malloc (sizeofProcess * F.lines.length) ≠ []) (hos : os.Healthy)
    (hF : WellFormed (cleanTable F.records)) :
    ∃ proc, main m (some file) = .schedule F.policy F.lines.length proc ∧
      proc.map Process.record = F.records ∧
      (F.policy.Fresh proc → ∀ n w, F.policy.Interleaving os q proc n w →
        (n < stepCount (cleanTable F.records) →
          ∃ w', ForkJoin.Step ((F.policy.body os).system os) w w') ∧
        (n = stepCount (cleanTable F.records) → (∃ s, w.parent = .ended (.done s)) ∧
          ((w.children ++ w.reaped).map fun c => (c.2.name, c.2.i, c.2.exited)).Perm
            (F.records.map fun r => (r.name, r.exec, true)))) := by
  have hlen : F.records.length = F.lines.length := List.length_map ..
  obtain ⟨proc, hmain, hproc⟩ := main_of_begins (m := m) (F.begins (hfile.trans F.tokens_render))
    (Or.inr (by rw [hlen]; exact hmalloc))
  rw [hlen] at hmain
  refine ⟨proc, hmain, hproc, fun hz n w h => ?_⟩
  -- the table is the one of the file
  have hrec : proc.map Process.record = (cleanTable F.records).map Process.record :=
    hproc.trans (record_cleanTable F.records).symm
  have hsame : SameRecords (cleanTable F.records) proc := List.Perm.of_eq hrec.symm
  have hW := hsame.wellFormed hF
  rw [← stepCount_of_records hrec]
  have hstep := h.exists_step_iff hos hW hz
  refine ⟨hstep.mp, fun hn => ?_⟩
  obtain ⟨-, hexit, s, hparent, -⟩ := h.of_stuck hos hW hz fun hw' =>
    Nat.ne_of_lt (hstep.mpr hw') hn
  refine ⟨⟨s, hparent⟩, ?_⟩
  have hperm := (h.children_perm hos hW hz hparent).map fun c => (c.1, c.2, true)
  rw [List.map_map, List.map_map] at hperm
  have hcounted : ∀ c ∈ w.children ++ w.reaped, (c.2.name, c.2.i, c.2.exited) =
      (c.2.name, c.2.exec, true) := by
    intro c hc
    obtain ⟨hexited, hall⟩ : c.2.exited = true ∧ c.2.i = c.2.exec :=
      (List.mem_append.mp hc).elim (hexit c) (h.reaped_exited hos hW hz c)
    rw [hexited, hall]
  rw [List.map_congr_left hcounted, ← hproc, List.map_map]
  exact hperm

/-- The test of README.md as an input file. -/
def readmeFile : InputFile where
  policy := .fifo
  lines := [
    ⟨[80, 49], 0, 2000, by decide +kernel, by decide, by decide, by decide, by decide⟩,
    ⟨[80, 50], 500, 500, by decide +kernel, by decide, by decide, by decide, by decide⟩,
    ⟨[80, 51], 1000, 500, by decide +kernel, by decide, by decide, by decide, by decide⟩,
    ⟨[80, 52], 1500, 500, by decide +kernel, by decide, by decide, by decide, by decide⟩]
  length_isInt := by decide

theorem runs_input_file_readme : ∃ proc,
    main zeroMemory (some readmeFile.render) = .schedule .fifo 4 proc ∧
      proc.map Process.record = readmeFile.records := by
  obtain ⟨proc, hmain, hproc, -⟩ := runs_input_file zeroMemory readmeFile readmeFile.render
    Os.counting Qsort.insertion rfl (by decide) Os.counting_healthy (by decide)
  exact ⟨proc, hmain, hproc⟩

end Main

end ProcSched
