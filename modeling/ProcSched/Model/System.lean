/-
  ProcSched.Model.System

  A scheduler together with the children it forks.  A child gets its own copy of
  its table entry, counts up to `exec` in its own time and exits; parent and
  children share nothing after the fork.  The parent goes through its loop in
  pieces between which the children may run: everything up to the fork scan (with
  the `waitpid` of the finish test), one entry of the scan at a time, and the
  rest of the iteration.
-/

import ProcSched.Lib.ForkJoin
import ProcSched.Model.Policy

namespace ProcSched

/-! ## Children -/

/-- A child in `for (int i = 0; i < exec; i++) time_unit();` or after the
    `exit(0)` behind it. -/
structure Child where
  name : String
  exec : Int
  i : Int
  exited : Bool
  deriving DecidableEq

/-- The child of a table entry at its fork. -/
def Process.child (p : Process) : Child := ⟨p.name, p.exec, 0, false⟩

/-- One unit of time of a child, or its exit. -/
def Child.step (c : Child) : Option Child :=
  if c.exited then none
  else if c.i < c.exec then some { c with i := c.i + 1 }
  else some { c with exited := true }

/-! ## Parents -/

/-- A loop body around a fork scan. -/
structure Body (σ : Type) where
  /-- what comes before the scan -/
  head : σ → Outcome σ
  /-- the pid `head` passes to `waitpid` -/
  waits : σ → Option Int
  proc : σ → List Process
  now : σ → Nat
  log : σ → Log
  /-- the state with another table and log -/
  store : σ → List Process → Log → σ
  /-- the body of the scan -/
  spawn : Nat → Nat → Process → Log → Except Log (Process × Log)
  /-- what comes after the scan -/
  tail : σ → Outcome σ

namespace Body

variable {σ : Type} (B : Body σ)

/-- The whole fork scan. -/
def scan (s : σ) : Outcome σ :=
  match forkScan (B.spawn (B.now s)) (B.now s) 0 (B.proc s) (B.log s) with
  | .error log => .exit (B.store s (B.proc s) log)
  | .ok (proc, log) => .next (B.store s proc log)

/-- The loop body without interruption. -/
def step (s : σ) : Outcome σ := ((B.head s).bind B.scan).bind B.tail

end Body

/-- Where a parent is in its loop. -/
inductive Point (σ : Type) where
  /-- at the top of an iteration -/
  | top (s : σ)
  /-- in the fork scan, at `proc[i]` -/
  | scan (i : Nat) (s : σ)
  /-- behind the loop, or where it makes no further call -/
  | ended (o : Outcome σ)

namespace Body

open ForkJoin (Action)

variable {σ : Type} (B : Body σ)

/-- One piece of the loop body, with what it does to the children. -/
def advance (os : Os) : Point σ → Option (Action Int Child × Point σ)
  | .top s => some
      (match B.waits s with
        | some pid => .wait pid
        | none => .quiet,
      match B.head s with
        | .next s => .scan 0 s
        | o => .ended o)
  | .scan i s =>
    if i < (B.proc s).length then
      if (entry (B.proc s) i).ready = B.now s then some
        (if 0 < os.fork (B.log s) then .fork (os.fork (B.log s)) (entry (B.proc s) i).child
          else .quiet,
        match B.spawn (B.now s) i (entry (B.proc s) i) (B.log s) with
          | .error log => .ended (.exit (B.store s (B.proc s) log))
          | .ok (p, log) => .scan (i + 1) (B.store s ((B.proc s).set i p) log))
      else some (.quiet, .scan (i + 1) s)
    else some
      (.quiet,
      match B.tail s with
        | .next s => .top s
        | o => .ended o)
  | .ended _ => none

/-- The loop with the children it forks as a system of programs. -/
def system (os : Os) : ForkJoin.System (Point σ) Child Int where
  parent := B.advance os
  child := Child.step

end Body

/-- Where a parent is before its loop, `o` being what the statements there come to. -/
def Outcome.launch {σ : Type} (o : Outcome σ) : Point σ :=
  match o with
  | .next s => .top s
  | o => .ended o

/-- The loop of FIFO.c, RR.c and SJF.c in pieces. -/
def Loop.Discipline.body (d : Loop.Discipline) (os : Os) : Body Loop.State where
  head := d.finishTest
  waits s :=
    match s.running with
    | none => none
    | some r => if (entry s.proc r).exec = 0 then some (entry s.proc r).pid else none
  proc := Loop.State.proc
  now := Loop.State.now
  log := Loop.State.log
  store s proc log := { s with proc := proc, log := log }
  spawn := d.spawn os
  tail s := (d.contextSwitch os s).bind fun s => .next s.unit

/-- The loop of PSJF.c in pieces. -/
def Psjf.body (os : Os) : Body Psjf.State where
  head s := if s.finished = s.proc.length then .done s else .next s
  waits _ := none
  proc := Psjf.State.proc
  now := Psjf.State.time
  log := Psjf.State.log
  store s proc log := { s with proc := proc, log := log }
  spawn := Psjf.spawn os
  tail s := .next (Psjf.select s).tick

/-! ## The four schedulers -/

namespace Policy

/-- The variables of the scheduler. -/
def State : Policy → Type
  | psjf => Psjf.State
  | fifo | sjf | rr => Loop.State

def body : (P : Policy) → Os → Body P.State
  | fifo, os => Fifo.discipline.body os
  | sjf, os => Sjf.discipline.body os
  | rr, os => Rr.discipline.body os
  | psjf, os => Psjf.body os

/-- The statements before the loop. -/
def start : (P : Policy) → Os → Qsort → List Process → Outcome P.State
  | fifo => Fifo.start
  | sjf => Sjf.start
  | rr => Rr.start
  | psjf => fun os _ => Psjf.start os

def snapshot : (P : Policy) → P.State → Snapshot
  | psjf => Psjf.State.snapshot
  | fifo | sjf | rr => Loop.State.snapshot

/-- A scheduler somewhere in its loop, and its children. -/
abbrev World (P : Policy) := ForkJoin.World (Point P.State) Child Int

/-- `n` steps of the scheduler and its children, in some order. -/
def Interleaving (P : Policy) (os : Os) (q : Qsort) (W : List Process) (n : ℕ) (w : P.World) :
    Prop :=
  ForkJoin.Run ((P.body os).system os) (P.start os q W).launch n w

end Policy
end ProcSched
