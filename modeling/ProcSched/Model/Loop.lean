/-
  ProcSched.Model.Loop

  The `while (1)` loop that FIFO.c, RR.c and SJF.c share.  The three files walk
  through the same phases in the same order: finish test of the running process
  (with the only exit of the loop), fork scan, choice of the next process,
  context switch, one unit of time.  They differ in how a child is forked, in
  the choice, in the calls of the context switch and in two counters; a
  `Discipline` collects these differences and each file's module gives its own.

  `proc[-1]` stands behind `running = none`: the index -1 of the source.
-/

import ProcSched.Lib.Outcome
import ProcSched.Model.Process

namespace ProcSched
namespace Loop

/-- The variables of the loop. -/
structure State where
  proc : List Process
  /-- `running`, `none` for -1 -/
  running : Option Nat
  /-- `time_cnt` (FIFO), `time_now` (RR), `ntime` (SJF) -/
  now : Nat
  /-- `time_last` (RR), `t_last` (SJF) -/
  last : Nat
  /-- `finish` (FIFO), `finish_cnt` (RR, SJF) -/
  finish : Nat
  /-- `wait` (RR) -/
  wait : Int
  log : Log
  deriving DecidableEq

/-- `proc[running].pid`, read in front of the table when `running` is -1. -/
def State.runningPid (os : Os) (s : State) : Int :=
  match s.running with
  | none => os.outside
  | some r => (entry s.proc r).pid

/-- What distinguishes the loops of the three files. -/
structure Discipline where
  /-- fork of the child of `proc[i]` -/
  spawn : Os → Nat → Nat → Process → Log → Except Log (Process × Log)
  /-- `wait` after the finish of `proc[r]` -/
  wait : State → Nat → Int
  /-- `next`, with `none` for -1; the outer `none` if the choice never returns -/
  next : State → Option (Option Nat)
  /-- the `sched_setscheduler` calls of the context switch to `proc[next]` -/
  wakeup : Os → State → Nat → Log
  /-- `time_last` after a context switch -/
  last : State → Nat

variable (d : Discipline)

/-- `if (running != -1 && proc[running].exec == 0) { ... }`: reap, count, and
    leave the loop when all are counted. -/
def Discipline.finishTest (s : State) : Outcome State :=
  match s.running with
  | none => .next s
  | some r =>
    if (entry s.proc r).exec = 0 then
      let s' := { s with
        running := none
        finish := s.finish + 1
        wait := d.wait s r
        log := s.log ++ [(s.now, .call (.waitpid (entry s.proc r).pid)),
          (s.now, .mark (.finish r))] }
      if s'.finish = s'.proc.length then .done s' else .next s'
    else .next s

/-- Fork the processes whose ready time has come. -/
def Discipline.forkReady (os : Os) (s : State) : Outcome State :=
  match forkScan (d.spawn os s.now) s.now 0 s.proc s.log with
  | .error log => .exit { s with log := log }
  | .ok (proc, log) => .next { s with proc := proc, log := log }

/-- Choose the next process and switch to it if it is not running. -/
def Discipline.contextSwitch (os : Os) (s : State) : Outcome State :=
  match d.next s with
  | none => .hang s
  | some none => .next s
  | some (some next) =>
    let log := s.log ++ [(s.now, .mark (.select next))]
    if s.running = some next then .next { s with log := log }
    else .next { s with
      running := some next
      last := d.last s
      log := log ++ d.wakeup os s next ++ [(s.now, .mark (.switch next))] }

/-- One unit of time, charged to the running process. -/
def State.unit (s : State) : State :=
  match s.running with
  | none => { s with now := s.now + 1 }
  | some r => { s with
      proc := s.proc.modify r fun p => { p with exec := p.exec - 1 }
      now := s.now + 1
      log := s.log ++ [(s.now, .mark (.decrement r))] }

/-- The loop body up to the choice of the next process. -/
def Discipline.arrive (os : Os) (s : State) : Outcome State :=
  (d.finishTest s).bind (d.forkReady os)

/-- The loop body. -/
def Discipline.step (os : Os) (s : State) : Outcome State :=
  ((d.arrive os s).bind (d.contextSwitch os)).bind fun s => .next s.unit

/-- `for (i = 0; i < n; i++) proc[i].pid = -1;` -/
def resetPids (proc : List Process) : List Process :=
  proc.map fun p => { p with pid := -1 }

/-- The state at the loop entry. -/
def State.initial (proc : List Process) (log : Log) : State where
  proc := resetPids proc
  running := none
  now := 0
  last := 0
  finish := 0
  wait := 0
  log := log

end Loop
end ProcSched
