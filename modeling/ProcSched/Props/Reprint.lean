/-
  ProcSched.Props.Reprint

  The first lines FIFO prints are its table, in the format of the input file.  They
  can be read back: behind a heading they are a file of which main makes the table
  FIFO has sorted, and FIFO prints the same for it.
-/

import ProcSched.Props.InputFile
import ProcSched.Props.Report

namespace ProcSched

open ForkJoin (heard)

namespace Fifo

variable {V V' : List Process}

theorem record_entry_congr (h : V.map Process.record = V'.map Process.record) (k : ℕ) :
    (entry V k).record = (entry V' k).record := by
  have hget : ∀ U : List Process, (entry U k).record =
      (U.map Process.record).getD k (default : Process).record := fun U =>
    (List.getD_map U default Process.record).symm
  rw [hget, hget, h]

theorem endTime_congr (h : V.map Process.record = V'.map Process.record) (k : ℕ) :
    endTime V k = endTime V' k := by
  induction k with
  | zero => rfl
  | succ k ih =>
      have hrecord := record_entry_congr h k
      rw [endTime, endTime, ih, show (entry V k).ready = (entry V' k).ready from
        congrArg Record.ready hrecord, show (entry V k).exec = (entry V' k).exec from
        congrArg Record.exec hrecord]

/-- The chart is one of the records. -/
theorem chart_congr (h : V.map Process.record = V'.map Process.record) : chart V = chart V' := by
  have hlines : V.map (fun p => Printf.record p.name p.ready p.exec) =
      V'.map fun p => .record p.name p.ready p.exec := by
    have hmap := congrArg (List.map fun r => Printf.record r.name r.ready r.exec) h
    rwa [List.map_map, List.map_map] at hmap
  have hlen := congrArg List.length h
  rw [List.length_map, List.length_map] at hlen
  rw [chart, chart, hlines, hlen]
  refine congrArg (_ ++ Printf.parentAssigned :: ·) (List.flatMap_congr fun k _ => ?_)
  rw [endTime_congr h, show (entry V k).name = (entry V' k).name from
    congrArg Record.name (record_entry_congr h k)]

end Fifo

namespace Main

open Scanf (numeral spaced bytes)

variable {average : Int → ℕ → String}

/-- A line of the table, as it is printed. -/
theorem bytes_record (l : Line) :
    bytes ((Printf.record l.record.name l.record.ready l.record.exec).text average) =
      spaced l.words := by
  have hblank : bytes " " = [32] := by simp [bytes]
  have hnewline : bytes "\n" = [10] := by simp [bytes]
  have hname : bytes l.record.name = l.name := Scanf.bytes_ofList l.name
  have htext : (Printf.record l.record.name l.record.ready l.record.exec).text average =
      l.record.name ++ " " ++ toString l.ready ++ " " ++ toString l.exec ++ "\n" := rfl
  rw [htext, Scanf.bytes_append, Scanf.bytes_append, Scanf.bytes_append, Scanf.bytes_append,
    Scanf.bytes_append, Scanf.bytes_toString, Scanf.bytes_toString, hblank, hnewline, hname]
  simp [Line.words, spaced]

theorem bytes_records (ls : List Line) :
    ((ls.map Line.record).map fun r => Printf.record r.name r.ready r.exec).flatMap
      (fun x => bytes (x.text average)) = spaced (ls.flatMap Line.words) := by
  rw [List.map_map, List.flatMap_map, spaced, List.flatMap_assoc]
  exact List.flatMap_congr fun l _ => bytes_record l

/-- The two lines in front of the records. -/
def heading (P : Policy) (n : ℕ) : List UInt8 := spaced [(P.word, [10]), (numeral n, [10])]

theorem InputFile.render_eq (F : InputFile) :
    F.render = heading F.policy F.lines.length ++ spaced (F.lines.flatMap Line.words) := by
  simp [InputFile.render, InputFile.words, heading, spaced]

/-- main reads the table FIFO prints, and makes of it the table FIFO has sorted.
    If the sort is stable, FIFO then prints what it has printed before. -/
theorem reads_printed_table (m : Memory) (F : InputFile) (file : List UInt8) (os : Os) (q : Qsort)
    (average : Int → ℕ → String) (hfifo : F.policy = .fifo)
    (hfile : Scanf.tokens file = Scanf.tokens F.render)
    (hmalloc : m.malloc (sizeofProcess * F.lines.length) ≠ []) (hos : os.Healthy)
    (hF : WellFormed (cleanTable F.records)) :
    ∃ proc, main m (some file) = .schedule .fifo F.lines.length proc ∧
      proc.map Process.record = F.records ∧
      ∀ ms w, Policy.fifo.Performs os q proc ms w →
        F.lines.length ≤ (heard none (Policy.fifo.output os ms)).length →
        ∃ proc', main m (some (heading .fifo F.lines.length ++
            ((heard none (Policy.fifo.output os ms)).take F.lines.length).flatMap
              fun x => bytes (x.text average))) = .schedule .fifo F.lines.length proc' ∧
          proc'.map Process.record = (q.sort Fifo.compare proc).map Process.record ∧
          (q.Stable → Fifo.chart (q.sort Fifo.compare proc') =
            Fifo.chart (q.sort Fifo.compare proc)) := by
  have hlen : F.records.length = F.lines.length := List.length_map ..
  obtain ⟨proc, hmain, hproc⟩ := main_of_begins (m := m) (F.begins (hfile.trans F.tokens_render))
    (Or.inr (by rw [hlen]; exact hmalloc))
  rw [hlen, hfifo] at hmain
  refine ⟨proc, hmain, hproc, fun ms w h hprinted => ?_⟩
  have hsame : SameRecords (cleanTable F.records) proc :=
    List.Perm.of_eq ((record_cleanTable F.records).trans hproc.symm)
  have hW := hsame.wellFormed hF
  -- the lines of the sorted table
  have hsorted : (q.sort Fifo.compare proc).map Process.record ∈
      Set.range (List.map Line.record) := by
    rw [Set.range_list_map]
    intro r hr
    have hperm := (q.sort_perm Fifo.compare proc).map Process.record
    rw [hproc] at hperm
    obtain ⟨l, -, hl⟩ := List.mem_map.mp (hperm.mem_iff.mp hr)
    exact ⟨l, hl⟩
  obtain ⟨ls, hls⟩ := hsorted
  have hlslen : ls.length = F.lines.length := by
    have hcount := congrArg List.length hls
    rw [List.length_map, List.length_map, q.length_sort, ← hsame.length_eq] at hcount
    rw [hcount, cleanTable, List.length_map, hlen]
  have htaken : (heard none (Policy.fifo.output os ms)).take F.lines.length =
      (ls.map Line.record).map fun r => Printf.record r.name r.ready r.exec := by
    have hz : Policy.fifo.Fresh proc := fun h => by cases h
    obtain ⟨pids, hprints⟩ := Policy.exists_prints (P := .fifo) (q := q) hos hW hz
    obtain ⟨rest, hrest⟩ := hprints.heard_prefix hos hW hz h
    rw [Fifo.report_eq hos hW pids] at hrest
    have htake : (heard none (Policy.fifo.output os ms) ++ rest).take F.lines.length =
        (heard none (Policy.fifo.output os ms)).take F.lines.length :=
      List.take_append_of_le_length hprinted
    rw [← htake, hrest, hls, List.map_map]
    exact List.take_left' (by rw [← hlslen, ← List.length_map (f := Line.record), hls]; simp)
  -- they make a file of their own
  let G : InputFile := ⟨.fifo, ls, by rw [hlslen]; exact F.length_isInt⟩
  have hG : heading .fifo F.lines.length ++ spaced (ls.flatMap Line.words) = G.render := by
    rw [InputFile.render_eq, hlslen]
  rw [htaken, bytes_records, hG]
  obtain ⟨proc', hmain', hproc'⟩ := main_of_begins (m := m) (G.begins G.tokens_render)
    (Or.inr (by rw [InputFile.records, List.length_map, hlslen]; exact hmalloc))
  have hsame' : proc'.map Process.record = (q.sort Fifo.compare proc).map Process.record :=
    hproc'.trans hls
  rw [InputFile.records, List.length_map, hlslen] at hmain'
  refine ⟨proc', hmain', hsame', fun hq => Fifo.chart_congr ?_⟩
  -- a table in ready order is left as it is
  have hperm : SameRecords (q.sort Fifo.compare proc) proc' := List.Perm.of_eq hsame'.symm
  have hordered : proc'.Pairwise fun a b => a.ready ≤ b.ready := by
    have hs := Policy.table_sorted (P := .fifo) (q := q) hW (by decide)
    have hmap : ((q.sort Fifo.compare proc).map Process.record).Pairwise fun a b =>
        a.ready ≤ b.ready := List.pairwise_map.mpr hs
    rw [← hsame', List.pairwise_map] at hmap
    exact hmap
  have hself := Policy.table_eq_self (P := .fifo) hq
    (hperm.wellFormed (Fifo.sort_wellFormed hW)) hordered
  exact (congrArg _ hself).trans hsame'

theorem reads_printed_table_readme : ∃ proc proc' ms,
    main zeroMemory (some readmeFile.render) = .schedule .fifo 4 proc ∧
      main zeroMemory (some (heading .fifo 4 ++
        ((heard none (Policy.fifo.output Os.counting ms)).take 4).flatMap
          fun x => bytes (x.text fun _ _ => ""))) = .schedule .fifo 4 proc' ∧
      proc'.map Process.record =
        (Qsort.insertion.sort Fifo.compare proc).map Process.record := by
  obtain ⟨proc, hmain, hproc, hall⟩ := reads_printed_table zeroMemory readmeFile readmeFile.render
    Os.counting Qsort.insertion (fun _ _ => "") rfl rfl (by decide) Os.counting_healthy (by decide)
  have hz : Policy.fifo.Fresh proc := fun h => by cases h
  have hsame : SameRecords (cleanTable readmeFile.records) proc :=
    List.Perm.of_eq ((record_cleanTable _).trans hproc.symm)
  have hW : WellFormed proc := hsame.wellFormed (by decide)
  obtain ⟨pids, hprints⟩ := Policy.exists_prints (P := .fifo) (q := .insertion)
    Os.counting_healthy hW hz
  obtain ⟨ms, w, h, hstuck⟩ := Policy.exists_performs_end (P := .fifo) (q := .insertion)
    Os.counting_healthy hW hz
  have hlen : 4 ≤ (heard none (Policy.fifo.output Os.counting ms)).length := by
    rw [hprints.parent _ w h hstuck, Fifo.report_eq Os.counting_healthy hW, Fifo.chart,
      List.length_append, List.length_map, Qsort.length_sort, ← hsame.length_eq]
    exact Nat.le_add_right _ _
  obtain ⟨proc', hmain', hsorted, -⟩ := hall _ w h hlen
  exact ⟨proc, proc', _, hmain, hmain', hsorted⟩

end Main
end ProcSched
