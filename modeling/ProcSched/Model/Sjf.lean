/-
  ProcSched.Model.Sjf

  SJF.c.  The fork, the choice of the next process and the context switch are
  written out inside `SJF` there; they are separate definitions here.
-/

import ProcSched.Lib.Qsort
import ProcSched.Model.Loop

namespace ProcSched
namespace Sjf

/-- `cmp` -/
def cmp (a b : Process) : Int := int32 (a.ready - b.ready)

/-- The fork scan's body.  A failed fork is reported and not handled: the child
    is assigned to its core and demoted all the same. -/
def spawn (os : Os) (now i : Nat) (p : Process) (log : Log) : Except Log (Process × Log) :=
  let pid := os.fork log
  match Psjf.procAssignCpu os now pid 1 (log ++ [(now, .call (.fork pid))]) with
  | .error log => .error log
  | .ok log =>
    .ok ({ p with pid := pid },
      schedSetscheduler now pid .idle 0 log ++ [(now, .mark (.fork i))])

/-- The selection loop: among the forked unfinished processes the first one with
    the least `exec`. -/
def nextScan (proc : List Process) : Option Nat :=
  (List.range proc.length).foldl (fun ret i =>
    if (entry proc i).pid = -1 ∨ (entry proc i).exec = 0 then ret
    else
      match ret with
      | none => some i
      | some r => if (entry proc i).exec < (entry proc r).exec then some i else some r) none

/-- `next` -/
def next (running : Option Nat) (proc : List Process) : Option Nat :=
  match running with
  | some r => some r
  | none => nextScan proc

def discipline : Loop.Discipline where
  spawn := spawn
  wait s _ := s.wait
  next s := some (next s.running s.proc)
  wakeup _ s next := schedSetscheduler s.now (entry s.proc next).pid .fifo 99 []
  last s := s.now

/-- The statements of `SJF` before the loop. -/
def start (os : Os) (q : Qsort) (proc : List Process) : Outcome Loop.State :=
  let proc := q.sort cmp proc
  match Psjf.procAssignCpu os 0 os.getpid 0 [] with
  | .error log => .exit (Loop.State.initial proc log)
  | .ok log => .next (Loop.State.initial proc (schedSetscheduler 0 os.getpid .other 0 log))

/-- `SJF` after `k` iterations of its loop. -/
def sjf (os : Os) (q : Qsort) (proc : List Process) (k : Nat) : Outcome Loop.State :=
  Outcome.run (discipline.step os) (start os q proc) k

end Sjf
end ProcSched
