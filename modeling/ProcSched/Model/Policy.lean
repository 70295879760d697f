/-
  ProcSched.Model.Policy

  The four schedulers under one name each, as main dispatches on the policy
  word, and the part of their states that all four have.
-/

import ProcSched.Lib.Schedule
import ProcSched.Model.Fifo
import ProcSched.Model.Psjf
import ProcSched.Model.Rr
import ProcSched.Model.Sjf

namespace ProcSched

/-- The policy words of the input file. -/
inductive Policy where
  | fifo
  | sjf
  | rr
  | psjf
  deriving DecidableEq

/-- Table, clock, finish counter and log of a scheduler. -/
structure Snapshot where
  proc : List Process
  clock : Nat
  finished : Nat
  log : Log
  deriving DecidableEq

def Loop.State.snapshot (s : Loop.State) : Snapshot where
  proc := s.proc
  clock := s.now
  finished := s.finish
  log := s.log

def Psjf.State.snapshot (s : Psjf.State) : Snapshot where
  proc := s.proc
  clock := s.time
  finished := s.finished
  log := s.log

namespace Policy

/-- The scheduler after `k` iterations of its loop. -/
def run (P : Policy) (os : Os) (q : Qsort) (proc : List Process) (k : Nat) : Outcome Snapshot :=
  match P with
  | fifo => (Fifo.fifo os q proc k).map Loop.State.snapshot
  | sjf => (Sjf.sjf os q proc k).map Loop.State.snapshot
  | rr => (Rr.rrMain os q proc k).map Loop.State.snapshot
  | psjf => (Psjf.psjf os proc k).map Psjf.State.snapshot

/-- The table the scheduler works on: sorted by three of the four. -/
def table (P : Policy) (q : Qsort) (proc : List Process) : List Process :=
  match P with
  | fifo => q.sort Fifo.compare proc
  | sjf => q.sort Sjf.cmp proc
  | rr => q.sort Rr.rrCompare proc
  | psjf => proc

/-- Which entry of the table is decremented in each unit of time. -/
def ran (P : Policy) (os : Os) (q : Qsort) (proc : List Process) : Schedule Nat := fun t =>
  (P.run os q proc (t + 1)).state.log.decremented t

/-- The process run in each unit of time, by what the input file says of it. -/
def ranRecord (P : Policy) (os : Os) (q : Qsort) (proc : List Process) (t : Nat) : Option Record :=
  (P.ran os q proc t).map fun i => (entry (P.table q proc) i).record

/-- The number of units after which `exec` of `proc[i]` has reached 0. -/
def CompletesAt (P : Policy) (os : Os) (q : Qsort) (proc : List Process) (i t : Nat) : Prop :=
  ∀ k, t ≤ k ↔ (entry (P.run os q proc k).state.proc i).exec = 0

end Policy
end ProcSched
