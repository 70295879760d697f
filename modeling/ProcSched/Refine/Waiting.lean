/-
  ProcSched.Refine.Waiting

  FIFO, SJF and RR never look at the `waiting` fields and write the `pid` fields
  before they read them: blanking the `waiting` fields commutes with the loop
  body, and two tables filled with the same records differ in nothing else once
  the loop is entered.
-/

import ProcSched.Model.Policy

namespace ProcSched

/-- The entry with its `waiting` field blanked. -/
def Process.blank (p : Process) : Process := { p with waiting := 0 }

@[simp] theorem Process.blank_pid (p : Process) : p.blank.pid = p.pid := rfl

@[simp] theorem Process.blank_ready (p : Process) : p.blank.ready = p.ready := rfl

@[simp] theorem Process.blank_exec (p : Process) : p.blank.exec = p.exec := rfl

/-- Reading a blanked table, also past its end. -/
@[simp] theorem entry_map_blank (proc : List Process) (i : Nat) :
    entry (proc.map Process.blank) i = (entry proc i).blank :=
  List.getD_map proc default Process.blank

theorem map_blank_modify (proc : List Process) (r : Nat) :
    (proc.modify r fun p => { p with exec := p.exec - 1 }).map Process.blank =
      (proc.map Process.blank).modify r fun p => { p with exec := p.exec - 1 } := by
  apply List.ext_getElem (by simp)
  intro i h₁ h₂
  simp only [List.getElem_map, List.getElem_modify]
  split <;> rfl

namespace Loop

/-- The state with the `waiting` fields blanked. -/
def State.blank (s : State) : State := { s with proc := s.proc.map Process.blank }

@[simp] theorem State.blank_proc (s : State) : s.blank.proc = s.proc.map Process.blank := rfl

/-- The discipline does not look at the `waiting` fields. -/
structure Discipline.IgnoresWaiting (d : Discipline) (os : Os) : Prop where
  spawn : ∀ now i p log, d.spawn os now i p.blank log =
    (d.spawn os now i p log).map fun x => (x.1.blank, x.2)
  wait : ∀ s r, d.wait s.blank r = d.wait s r
  next : ∀ s, d.next s.blank = d.next s
  wakeup : ∀ s i, d.wakeup os s.blank i = d.wakeup os s i
  last : ∀ s, d.last s.blank = d.last s

variable {d : Discipline} {os : Os}

theorem forkScan_blank {spawn : Nat → Process → Log → Except Log (Process × Log)}
    (h : ∀ i p log, spawn i p.blank log = (spawn i p log).map fun x => (x.1.blank, x.2))
    (now i : Nat) (ps : List Process) (log : Log) :
    forkScan spawn now i (ps.map Process.blank) log =
      (forkScan spawn now i ps log).map fun x => (x.1.map Process.blank, x.2) := by
  induction ps generalizing i log with
  | nil => rfl
  | cons p ps ih =>
      have hfirst : (if p.blank.ready = now then spawn i p.blank log else .ok (p.blank, log)) =
          (if p.ready = now then spawn i p log else .ok (p, log)).map
            fun x => (x.1.blank, x.2) := by
        rw [Process.blank_ready]
        split
        · exact h i p log
        · rfl
      rw [List.map_cons, forkScan, hfirst, forkScan]
      cases (if p.ready = now then spawn i p log else .ok (p, log)) with
      | error log => rfl
      | ok x =>
          simp only [Except.map, ih]
          cases forkScan spawn now (i + 1) ps x.2 with
          | error log => rfl
          | ok y => rfl

section Step

variable (h : d.IgnoresWaiting os) (s : State)
include h

theorem finishTest_blank : d.finishTest s.blank = (d.finishTest s).map State.blank := by
  have hwait := h.wait s
  simp only [Discipline.finishTest]
  rw [show s.blank.running = s.running from rfl]
  cases s.running with
  | none => rfl
  | some r =>
      simp only [hwait, State.blank_proc, entry_map_blank, Process.blank_exec, Process.blank_pid,
        List.length_map]
      by_cases hexec : (entry s.proc r).exec = 0
      · simp only [hexec, if_true]
        rw [show s.blank.finish = s.finish from rfl]
        by_cases hall : s.finish + 1 = s.proc.length
        · simp only [hall, if_true]
          rfl
        · simp only [hall, if_false]
          rfl
      · simp only [hexec, if_false]
        rfl

theorem forkReady_blank : d.forkReady os s.blank = (d.forkReady os s).map State.blank := by
  have hscan := forkScan_blank (h.spawn s.now) s.now 0 s.proc s.log
  simp only [Discipline.forkReady]
  rw [State.blank_proc, show s.blank.now = s.now from rfl, show s.blank.log = s.log from rfl, hscan]
  cases forkScan (d.spawn os s.now) s.now 0 s.proc s.log <;> rfl

theorem contextSwitch_blank :
    d.contextSwitch os s.blank = (d.contextSwitch os s).map State.blank := by
  simp only [Discipline.contextSwitch, h.next, h.last, h.wakeup]
  cases d.next s with
  | none => rfl
  | some o =>
      cases o with
      | none => rfl
      | some i =>
          simp only
          rw [show s.blank.running = s.running from rfl]
          by_cases hrun : s.running = some i
          · simp only [hrun, if_true]
            rfl
          · simp only [hrun, if_false]
            rfl

omit h in
theorem unit_blank : s.blank.unit = s.unit.blank := by
  simp only [State.unit]
  rw [show s.blank.running = s.running from rfl]
  cases s.running with
  | none => rfl
  | some r =>
      simp only [State.blank, map_blank_modify]

/-- Blanking commutes with the loop body. -/
theorem step_blank : d.step os s.blank = (d.step os s).map State.blank := by
  rw [Discipline.step, Discipline.step, Discipline.arrive, Discipline.arrive, finishTest_blank h]
  cases d.finishTest s with
  | next s₁ =>
      rw [Outcome.map_next, Outcome.bind_next, Outcome.bind_next, forkReady_blank h]
      cases d.forkReady os s₁ with
      | next s₂ =>
          rw [Outcome.map_next, Outcome.bind_next, Outcome.bind_next, contextSwitch_blank h]
          cases d.contextSwitch os s₂ with
          | next s₃ =>
              rw [Outcome.map_next, Outcome.bind_next, Outcome.bind_next, unit_blank,
                Outcome.map_next]
          | _ => rfl
      | _ => rfl
  | _ => rfl

end Step

/-- Runs from states that agree up to `waiting` agree up to `waiting`. -/
theorem run_blank (h : d.IgnoresWaiting os) {o o' : Outcome State}
    (ho : o.map State.blank = o'.map State.blank) (k : Nat) :
    (Outcome.run (d.step os) o k).map State.blank =
      (Outcome.run (d.step os) o' k).map State.blank := by
  rw [← Outcome.run_map (step_blank h) o k, ← Outcome.run_map (step_blank h) o' k, ho]

end Loop

/-! ## The three files -/

section Files

variable (os : Os)

theorem Fifo.ignoresWaiting : Fifo.discipline.IgnoresWaiting os where
  spawn now i p log := by
    simp only [Fifo.discipline, Fifo.spawn]
    cases procExec (procAssignCpu os now) os now log <;> rfl
  wait _ _ := rfl
  next s := by
    simp only [Fifo.discipline, Fifo.nextProc, Fifo.nextProcScan, Loop.State.blank,
      List.length_map, entry_map_blank, Process.blank_pid, Process.blank_exec,
      Process.blank_ready]
  wakeup s i := by
    simp only [Fifo.discipline, Loop.State.runningPid, Loop.State.blank, entry_map_blank,
      Process.blank_pid]
  last _ := rfl

theorem Sjf.ignoresWaiting : Sjf.discipline.IgnoresWaiting os where
  spawn now i p log := by
    simp only [Sjf.discipline, Sjf.spawn]
    cases Psjf.procAssignCpu os now (os.fork log) 1
      (log ++ [(now, .call (.fork (os.fork log)))]) <;> rfl
  wait _ _ := rfl
  next s := by
    simp only [Sjf.discipline, Sjf.next, Sjf.nextScan, Loop.State.blank, List.length_map,
      entry_map_blank, Process.blank_pid, Process.blank_exec]
  wakeup s i := by
    simp only [Sjf.discipline, Loop.State.blank, entry_map_blank, Process.blank_pid]
  last _ := rfl

theorem Rr.rotate_blank (proc : List Process) (fuel ret : Nat) :
    Rr.rotate (proc.map Process.blank) fuel ret = Rr.rotate proc fuel ret := by
  induction fuel generalizing ret with
  | zero => rfl
  | succ fuel ih =>
      simp only [Rr.rotate, entry_map_blank, Process.blank_pid, Process.blank_exec,
        List.length_map, ih]

theorem Rr.ignoresWaiting : Rr.discipline.IgnoresWaiting os where
  spawn now i p log := by
    simp only [Rr.discipline, Rr.spawn]
    cases procExec (Psjf.procAssignCpu os now) os now log <;> rfl
  wait s r := by
    simp only [Rr.discipline, Loop.State.blank, entry_map_blank, Process.blank_ready,
      Process.blank_exec]
  next s := by
    simp only [Rr.discipline, Rr.rrNext, Rr.firstReady, Loop.State.blank, List.length_map,
      entry_map_blank, Process.blank_pid, Process.blank_exec, Rr.rotate_blank]
  wakeup s i := by
    simp only [Rr.discipline, Loop.State.runningPid, Loop.State.blank, entry_map_blank,
      Process.blank_pid]
  last _ := rfl

end Files

/-! ## Tables filled from one file -/

section Tables

variable {V V' : List Process} (h : V.map Process.record = V'.map Process.record)
include h

/-- Sorted by ready time and with their pids reset, the tables agree up to
    `waiting`. -/
theorem initial_blank (q : Qsort) (cmp : Process → Process → Int)
    (hcmp : ∀ a a' b b' : Process, a.record = a'.record → b.record = b'.record →
      cmp a b = cmp a' b') (log : Log) :
    (Loop.State.initial (q.sort cmp V) log).blank =
      (Loop.State.initial (q.sort cmp V') log).blank := by
  have hlen : V.length = V'.length := by
    have := congrArg List.length h
    rwa [List.length_map, List.length_map] at this
  obtain ⟨p, -, hV, hV'⟩ := Qsort.sort_congr (q := q) hlen
    fun i j => hcmp _ _ _ _ (record_eq_of_map h i) (record_eq_of_map h j)
  have hproc : (Loop.resetPids (q.sort cmp V)).map Process.blank =
      (Loop.resetPids (q.sort cmp V')).map Process.blank := by
    rw [hV, hV', Loop.resetPids, Loop.resetPids, List.map_map, List.map_map, List.map_map,
      List.map_map]
    apply List.map_congr_left
    intro i _
    have hrec := record_eq_of_map h i
    rw [Process.record, Process.record, Record.mk.injEq] at hrec
    obtain ⟨hname, hready, hexec⟩ := hrec
    show (⟨_, _, _, 0, -1⟩ : Process) = ⟨_, _, _, 0, -1⟩
    rw [Process.mk.injEq]
    exact ⟨hname, hready, hexec, rfl, rfl⟩
  simp only [Loop.State.blank, Loop.State.initial, hproc]

theorem Policy.start_blank (os : Os) (q : Qsort) :
    (Fifo.start os q V).map Loop.State.blank = (Fifo.start os q V').map Loop.State.blank ∧
      (Sjf.start os q V).map Loop.State.blank = (Sjf.start os q V').map Loop.State.blank ∧
      (Rr.start os q V).map Loop.State.blank = (Rr.start os q V').map Loop.State.blank := by
  have hready : ∀ a a' : Process, a.record = a'.record → a.ready = a'.ready := fun a a' he =>
    congrArg Record.ready he
  have hfifo := initial_blank h q Fifo.compare fun a a' b b' ha hb => by
    rw [Fifo.compare, Fifo.compare, hready a a' ha, hready b b' hb]
  have hsjf := initial_blank h q Sjf.cmp fun a a' b b' ha hb => by
    rw [Sjf.cmp, Sjf.cmp, hready a a' ha, hready b b' hb]
  have hrr := initial_blank h q Rr.rrCompare fun a a' b b' ha hb => by
    rw [Rr.rrCompare, Rr.rrCompare, hready a a' ha, hready b b' hb]
  refine ⟨?_, ?_, ?_⟩
  · simp only [Fifo.start]
    cases Fifo.procAssignCpu os 0 os.getpid 0 [] <;> simp [hfifo]
  · simp only [Sjf.start]
    cases Psjf.procAssignCpu os 0 os.getpid 0 [] <;> simp [hsjf]
  · simp only [Rr.start]
    cases Psjf.procAssignCpu os 0 os.getpid 0 [] with
    | error log => simp [hrr]
    | ok log => by_cases hset : os.setscheduler os.getpid .other 0 < 0 <;> simp [hset, hrr]

end Tables

/-- What a run shows: its clock, its finish counter and its log. -/
def Snapshot.observed (s : Snapshot) : Nat × Nat × Log := (s.clock, s.finished, s.log)

/-- FIFO, SJF and RR show the same on tables filled with the same records. -/
theorem Policy.observed_eq {P : Policy} (hP : P ≠ psjf) {V V' : List Process}
    (h : V.map Process.record = V'.map Process.record) (os : Os) (q : Qsort) (k : Nat) :
    (P.run os q V k).map Snapshot.observed = (P.run os q V' k).map Snapshot.observed := by
  obtain ⟨hfifo, hsjf, hrr⟩ := Policy.start_blank h os q
  -- blanking is not seen in what a run shows
  have hview : ∀ o o' : Outcome Loop.State,
      o.map Loop.State.blank = o'.map Loop.State.blank →
        (o.map Loop.State.snapshot).map Snapshot.observed =
          (o'.map Loop.State.snapshot).map Snapshot.observed := fun o o' he => by
    have := congrArg (Outcome.map (Snapshot.observed ∘ Loop.State.snapshot)) he
    rw [Outcome.map_map, Outcome.map_map] at this
    rw [Outcome.map_map, Outcome.map_map]
    exact this
  cases P with
  | fifo => exact hview _ _ (Loop.run_blank (Fifo.ignoresWaiting os) hfifo k)
  | sjf => exact hview _ _ (Loop.run_blank (Sjf.ignoresWaiting os) hsjf k)
  | rr => exact hview _ _ (Loop.run_blank (Rr.ignoresWaiting os) hrr k)
  | psjf => exact absurd rfl hP

end ProcSched
