/-
  ProcSched.Model.Fifo

  FIFO.c.  `wait` and `last` of the shared loop do not exist in this file and
  stay 0.
-/

import ProcSched.Lib.Qsort
import ProcSched.Model.Loop

namespace ProcSched
namespace Fifo

/-- `compare` -/
def compare (p₁ p₂ : Process) : Int :=
  if p₁.ready < p₂.ready then -1 else if p₁.ready = p₂.ready then 0 else 1

/-- The fork scan's body: `proc[i].pid = proc_exec(proc[i]); proc_block(proc[i].pid);` -/
def spawn (os : Os) (now i : Nat) (p : Process) (log : Log) : Except Log (Process × Log) :=
  match procExec (procAssignCpu os now) os now log with
  | .error log => .error log
  | .ok (pid, log) => .ok ({ p with pid := pid }, procBlock now pid log ++ [(now, .mark (.fork i))])

/-- The scan of `next_proc`: among the forked unfinished processes the first one
    with the least ready time. -/
def nextProcScan (proc : List Process) : Option Nat :=
  (List.range proc.length).foldl (fun ret i =>
    if (entry proc i).pid = -1 ∨ (entry proc i).exec = 0 then ret
    else
      match ret with
      | none => some i
      | some r => if (entry proc i).ready < (entry proc r).ready then some i else some r) none

/-- `next_proc` -/
def nextProc (running : Option Nat) (proc : List Process) : Option Nat :=
  match running with
  | some r => some r
  | none => nextProcScan proc

def discipline : Loop.Discipline where
  spawn := spawn
  wait s _ := s.wait
  next s := some (nextProc s.running s.proc)
  wakeup os s next :=
    procBlock s.now (s.runningPid os) (procWakeup s.now (entry s.proc next).pid [])
  last s := s.last

/-- The statements of `FIFO` before the loop. -/
def start (os : Os) (q : Qsort) (proc : List Process) : Outcome Loop.State :=
  let proc := q.sort compare proc
  match procAssignCpu os 0 os.getpid 0 [] with
  | .error log => .exit (Loop.State.initial proc log)
  | .ok log => .next (Loop.State.initial proc (procWakeup 0 os.getpid log))

/-- `FIFO` after `k` iterations of its loop. -/
def fifo (os : Os) (q : Qsort) (proc : List Process) (k : Nat) : Outcome Loop.State :=
  Outcome.run (discipline.step os) (start os q proc) k

end Fifo
end ProcSched
