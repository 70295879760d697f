/-
  ProcSched.Model.Rr

  RR.c.
-/

import ProcSched.Lib.Qsort
import ProcSched.Model.Loop

namespace ProcSched
namespace Rr

/-- `interval` -/
def interval : Nat := 500

/-- `RR_compare` -/
def rrCompare (a b : Process) : Int := int32 (a.ready - b.ready)

/-- The fork scan's body. -/
def spawn (os : Os) (now i : Nat) (p : Process) (log : Log) : Except Log (Process × Log) :=
  match procExec (Psjf.procAssignCpu os now) os now log with
  | .error log => .error log
  | .ok (pid, log) => .ok ({ p with pid := pid }, procBlock now pid log ++ [(now, .mark (.fork i))])

/-- The first loop of `RR_next`: the first forked unfinished process. -/
def firstReady (proc : List Process) : Option Nat :=
  (List.range proc.length).find? fun i => (entry proc i).pid ≠ -1 ∧ (entry proc i).exec > 0

/-- The `while` of `RR_next` from index `ret`.  After as many steps as there are
    entries every index has been looked at, so `none` is an endless loop. -/
def rotate (proc : List Process) : Nat → Nat → Option Nat
  | 0, _ => none
  | fuel + 1, ret =>
    if (entry proc ret).pid = -1 ∨ (entry proc ret).exec = 0 then
      rotate proc fuel ((ret + 1) % proc.length)
    else some ret

/-- `RR_next`; the outer `none` if it does not return. -/
def rrNext (s : Loop.State) : Option (Option Nat) :=
  match s.running with
  | none => some (firstReady s.proc)
  | some r =>
    if (s.now - s.last) % interval = 0 then
      (rotate s.proc s.proc.length ((r + 1) % s.proc.length)).map some
    else some (some r)

def discipline : Loop.Discipline where
  spawn := spawn
  wait s r := int32 (s.wait + s.now - (entry s.proc r).ready - (entry s.proc r).exec)
  next := rrNext
  wakeup os s next :=
    procBlock s.now (s.runningPid os) (procWakeup s.now (entry s.proc next).pid [])
  last s := s.now

/-- The statements of `RR_main` before the loop. -/
def start (os : Os) (q : Qsort) (proc : List Process) : Outcome Loop.State :=
  let proc := q.sort rrCompare proc
  match Psjf.procAssignCpu os 0 os.getpid 0 [] with
  | .error log => .exit (Loop.State.initial proc log)
  | .ok log =>
    let log := schedSetscheduler 0 os.getpid .other 0 log
    if os.setscheduler os.getpid .other 0 < 0 then .exit (Loop.State.initial proc log)
    else .next (Loop.State.initial proc log)

/-- `RR_main` after `k` iterations of its loop. -/
def rrMain (os : Os) (q : Qsort) (proc : List Process) (k : Nat) : Outcome Loop.State :=
  Outcome.run (discipline.step os) (start os q proc) k

end Rr
end ProcSched
