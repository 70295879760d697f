/-
  ProcSched.Model.Output

  What the schedulers and their children print.  A line is a `printf` call with
  its arguments; the lines stand where the source has them between the pieces of
  the loop body, so a child of a new process may print before its parent has
  printed what follows the fork.

  A line is printed in one step, as it is when the output is a terminal.  (To a
  file it is written from a buffer, which `fork` copies.)

  `time_cnt` is a global of FIFO.c, but a child has its own copy: the clock it
  prints is that of its fork.
-/

import ProcSched.Lib.Printing
import ProcSched.Model.System

namespace ProcSched

/-- The `printf` calls of the program, with their arguments. -/
inductive Printf where
  /-- an entry of the sorted table (FIFO.c) -/
  | record (name : String) (ready exec : Int)
  | parentAssigned
  | contextSwitch
  | ended (name : String) (time : Nat)
  /-- by a child of FIFO.c, as its first line -/
  | forked (name : String) (time : Nat) (pid : Int)
  /-- and as its last one -/
  | exited (name : String) (time : Nat)
  /-- SJF.c -/
  | called
  | namePid (name : String) (pid : Int)
  /-- RR.c -/
  | finish (name : String) (pid : Int) (time : Nat)
  | readyAt (name : String) (time : Nat)
  /-- the quotient of `wait` and `num_process` -/
  | average (wait : Int) (n : Nat)
  /-- PSJF.c -/
  | childPid (pid : Int)
  | blockError
  | preRunningError (pid : Int)
  | runningError (pid : Int)
  /-- by a child of PSJF.c, as its first line -/
  | child (name : String)
  /-- and as its last one -/
  | finished (name : String)
  deriving DecidableEq

/-- The text of a line; `average` writes the quotient of its arguments as `%.2f`
    does. -/
def Printf.text (average : Int → Nat → String) : Printf → String
  | .record name ready exec => name ++ " " ++ toString ready ++ " " ++ toString exec ++ "\n"
  | .parentAssigned => "parent CPU assigned\n"
  | .contextSwitch => "!!!!!!context switch!!!!!!\n"
  | .ended name time => "process " ++ name ++ " ended     time : " ++ toString time ++ "\n"
  | .forked name time pid =>
    "process " ++ name ++ " forked    time : " ++ toString time ++ "   pid: " ++ toString pid ++ "\n"
  | .exited name time => "process " ++ name ++ " exited     time : " ++ toString time ++ "\n"
  | .called => "SJF is successfully called!\n"
  | .namePid name pid => name ++ " " ++ toString pid ++ "\n"
  | .finish name pid time =>
    "Finish " ++ name ++ " " ++ toString pid ++ " " ++ toString time ++ "\n"
  | .readyAt name time => name ++ " ready at time " ++ toString time ++ ".\n"
  | .average wait n => "Average waiting time: " ++ average wait n ++ "\n"
  | .childPid pid => toString pid ++ "\n"
  | .blockError => "block error\n"
  | .preRunningError pid => "pre_running error" ++ toString pid
  | .runningError pid => "running error:" ++ toString pid ++ " "
  | .child name => "I am a child process my name is: " ++ name ++ "\n"
  | .finished name => "process name:" ++ name ++ " is finished\n"

/-! ## Lines of a loop body -/

/-- The lines printed by a loop body and by the children it forks. -/
structure Body.Texts (σ : Type) where
  /-- before the scan, and behind its `waitpid` -/
  head : σ → List Printf
  /-- in the scan, behind the fork for an entry, which has its new pid -/
  ready : Nat → Process → List Printf
  /-- behind the scan -/
  tail : σ → List Printf
  /-- by a child, at its fork, from its `time_cnt`, its `getpid()` and its name -/
  first : Nat → Int → String → List Printf
  /-- and before its `exit(0)` -/
  last : Nat → Int → String → List Printf

/-- The lines, piece by piece. -/
def Body.voice {σ : Type} (B : Body σ) (T : Texts σ) (os : Os) :
    ForkJoin.Voice (Point σ) Printf where
  tells
    | .top s => T.head s
    | .scan i s =>
      if i < (B.proc s).length then
        if (entry (B.proc s) i).ready = B.now s then
          match B.spawn (B.now s) i (entry (B.proc s) i) (B.log s) with
          | .error _ => []
          | .ok (p, _) => T.ready (B.now s) p
        else []
      else T.tail s
    | .ended _ => []
  greets
    | .scan i s => T.first (B.now s) (os.fork (B.log s)) (entry (B.proc s) i).name
    | _ => []
  parts
    | .scan i s => T.last (B.now s) (os.fork (B.log s)) (entry (B.proc s) i).name
    | _ => []

/-- The lines that distinguish FIFO.c, RR.c and SJF.c. -/
structure Loop.Texts where
  /-- behind the `waitpid` for `proc[r]` -/
  finish : State → Nat → List Printf
  ready : Nat → Process → List Printf
  /-- in the context switch -/
  switch : List Printf
  first : Nat → Int → String → List Printf
  last : Nat → Int → String → List Printf

/-- The lines of the shared loop. -/
def Loop.Discipline.texts (d : Loop.Discipline) (T : Loop.Texts) : Body.Texts Loop.State where
  head s :=
    match s.running with
    | none => []
    | some r => if (entry s.proc r).exec = 0 then T.finish s r else []
  ready := T.ready
  tail s :=
    match d.next s with
    | some (some next) => if s.running = some next then [] else T.switch
    | _ => []
  first := T.first
  last := T.last

def Fifo.texts : Loop.Texts where
  finish s r := [.ended (entry s.proc r).name s.now]
  ready _ _ := []
  switch := [.contextSwitch]
  first now pid name := [.forked name now pid]
  last now _ name := [.exited name now]

/-- What `FIFO` prints before its loop. -/
def Fifo.opening (os : Os) (q : Qsort) (proc : List Process) : List Printf :=
  ((q.sort compare proc).map fun p => .record p.name p.ready p.exec) ++
    match start os q proc with
    | .next _ => [.parentAssigned]
    | _ => []

/-- The last finish is followed by the average. -/
def Rr.texts : Loop.Texts where
  finish s r :=
    .finish (entry s.proc r).name (entry s.proc r).pid s.now ::
      if s.finish + 1 = s.proc.length then [.average (discipline.wait s r) s.proc.length] else []
  ready now p := [.readyAt p.name now]
  switch := []
  first _ _ _ := []
  last _ _ _ := []

def Sjf.texts : Loop.Texts where
  finish s r := [.namePid (entry s.proc r).name (entry s.proc r).pid]
  ready _ _ := []
  switch := []
  first _ _ _ := []
  last _ _ _ := []

def Psjf.texts (os : Os) : Body.Texts Psjf.State where
  head _ := []
  ready _ p :=
    .childPid p.pid :: if os.setscheduler p.pid .fifo blockPriority = -1 then [.blockError] else []
  tail s :=
    let running := (entry s.proc (findMinIndex s.proc)).pid
    if someProcessIsReady s.proc = true ∧ running ≠ s.preRunning then
      (if s.preRunning ≠ -1 ∧ os.setscheduler s.preRunning .fifo highPriority = -1 then
        [.preRunningError s.preRunning] else []) ++
      (if os.setscheduler running .fifo blockPriority = -1 then [.runningError running] else [])
    else []
  first _ _ name := [.child name]
  last _ _ name := [.finished name]

/-! ## The four schedulers -/

namespace Policy

open ForkJoin (Speaker Kid Mover Trail)

def texts : (P : Policy) → Os → Body.Texts P.State
  | fifo, _ => Fifo.discipline.texts Fifo.texts
  | sjf, _ => Sjf.discipline.texts Sjf.texts
  | rr, _ => Rr.discipline.texts Rr.texts
  | psjf, os => Psjf.texts os

/-- What the scheduler prints before its loop. -/
def opening (P : Policy) (os : Os) (q : Qsort) (proc : List Process) : List Printf :=
  match P with
  | fifo => Fifo.opening os q proc
  | sjf => [.called]
  | rr | psjf => []

/-- The scheduler with its children, and the lines of all of them. -/
def printing (P : Policy) (os : Os) :
    ForkJoin.System (Speaker (Point P.State) Printf) (Kid Child Printf) Int :=
  ((P.body os).system os).printing ((P.body os).voice (P.texts os) os)

/-- A step of the scheduler or of a child, a line or something else. -/
abbrev Move (P : Policy) := Mover (Speaker (Point P.State) Printf) (Kid Child Printf) Int

/-- A scheduler somewhere in its loop and its children, with the lines they have
    still to print. -/
abbrev Stage (P : Policy) :=
  ForkJoin.World (Speaker (Point P.State) Printf) (Kid Child Printf) Int

/-- The steps of the scheduler and its children, in some order. -/
def Performs (P : Policy) (os : Os) (q : Qsort) (W : List Process) (ms : List P.Move)
    (w : P.Stage) : Prop :=
  Trail (P.printing os) ⟨(P.start os q W).launch, P.opening os q W⟩ ms w

/-- What has been printed, with the pids of the children that have printed it. -/
def output (P : Policy) (os : Os) (ms : List P.Move) : List (Option Int × Printf) :=
  ForkJoin.transcript ((P.body os).system os) ms

end Policy
end ProcSched
