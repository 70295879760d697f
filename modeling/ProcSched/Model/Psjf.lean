/-
  ProcSched.Model.Psjf

  PSJF.c.  The table is not sorted; a process is eligible while its `waiting`
  field is 1, and `running` and `pre_running` are pids, not indices.
-/

import ProcSched.Lib.Outcome
import ProcSched.Model.Process

namespace ProcSched
namespace Psjf

/-- The variables of `PSJF`. -/
structure State where
  proc : List Process
  time : Nat
  preRunning : Int
  running : Int
  /-- `finished_process` -/
  finished : Nat
  log : Log
  deriving DecidableEq

/-- `block.sched_priority` -/
def blockPriority : Int := 10

/-- `high.sched_priority` -/
def highPriority : Int := 90

/-- `process_ready` in the parent. -/
def processReady (os : Os) (now : Nat) (log : Log) : Except Log (Int × Log) :=
  let pid := os.fork log
  (procAssignCpu os now pid 1 (log ++ [(now, .call (.fork pid))])).map fun log => (pid, log)

/-- The fork scan's body. -/
def spawn (os : Os) (now i : Nat) (p : Process) (log : Log) : Except Log (Process × Log) :=
  match processReady os now log with
  | .error log => .error log
  | .ok (pid, log) =>
    .ok ({ p with pid := pid, waiting := 1 },
      schedSetscheduler now pid .fifo blockPriority log ++ [(now, .mark (.fork i))])

/-- `find_min_index`: `index` and `min` through the loop, from 0 and `INT_MAX`. -/
def findMinIndex (proc : List Process) : Nat :=
  ((List.range proc.length).foldl (fun (acc : Nat × Int) i =>
    if (entry proc i).exec < acc.2 ∧ (entry proc i).waiting = 1 then (i, (entry proc i).exec)
    else acc) (0, intMax)).1

/-- `some_process_is_ready` -/
def someProcessIsReady (proc : List Process) : Bool :=
  proc.any fun p => p.waiting = 1

/-- Fork the processes whose ready time has come. -/
def forkReady (os : Os) (s : State) : Outcome State :=
  match forkScan (spawn os s.time) s.time 0 s.proc s.log with
  | .error log => .exit { s with log := log }
  | .ok (proc, log) => .next { s with proc := proc, log := log }

/-- `running = proc[index].pid`, and the `sched_setscheduler` calls if that is
    not the process of the previous unit. -/
def dispatch (index : Nat) (s : State) : State :=
  let running := (entry s.proc index).pid
  let log := s.log ++ [(s.time, .mark (.select index))]
  if running ≠ s.preRunning then
    let log := if s.preRunning ≠ -1
      then schedSetscheduler s.time s.preRunning .fifo highPriority log else log
    let log := schedSetscheduler s.time running .fifo blockPriority log
    { s with running := running, log := log ++ [(s.time, .mark (.switch index))] }
  else { s with running := running, log := log }

/-- `pre_running = running; proc[index].exec--;` and the finish test. -/
def update (index : Nat) (s : State) : State :=
  let proc := s.proc.modify index fun p => { p with exec := p.exec - 1 }
  let log := s.log ++ [(s.time, .mark (.decrement index))]
  if (entry proc index).exec = 0 then
    { s with
      preRunning := s.running
      proc := proc.modify index fun p => { p with waiting := 0 }
      finished := s.finished + 1
      log := log ++ [(s.time, .mark (.finish index))] }
  else { s with preRunning := s.running, proc := proc, log := log }

/-- The choice of the process to run, its dispatch and its unit. -/
def select (s : State) : State :=
  if someProcessIsReady s.proc then
    let index := findMinIndex s.proc
    update index (dispatch index s)
  else s

/-- `unit_time(); time++;` -/
def State.tick (s : State) : State := { s with time := s.time + 1 }

@[simp] theorem State.tick_proc (s : State) : s.tick.proc = s.proc := rfl

@[simp] theorem State.tick_time (s : State) : s.tick.time = s.time + 1 := rfl

@[simp] theorem State.tick_log (s : State) : s.tick.log = s.log := rfl

@[simp] theorem State.tick_preRunning (s : State) : s.tick.preRunning = s.preRunning := rfl

@[simp] theorem State.tick_finished (s : State) : s.tick.finished = s.finished := rfl

/-- The `while (finished_process != n_proc)` loop. -/
def step (os : Os) (s : State) : Outcome State :=
  if s.finished = s.proc.length then .done s
  else (forkReady os s).bind fun s => .next (select s).tick

/-- The statements of `PSJF` before the loop. -/
def start (os : Os) (proc : List Process) : Outcome State :=
  let s : State :=
    { proc := proc, time := 0, preRunning := -1, running := -1, finished := 0, log := [] }
  match procAssignCpu os 0 os.getpid 0 [] with
  | .error log => .exit { s with log := log }
  | .ok log => .next { s with log := log }

/-- `PSJF` after `k` iterations of its loop. -/
def psjf (os : Os) (proc : List Process) (k : Nat) : Outcome State :=
  Outcome.run (step os) (start os proc) k

end Psjf
end ProcSched
