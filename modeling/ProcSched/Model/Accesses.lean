/-
  ProcSched.Model.Accesses

  The table accesses of an iteration: the indices `k` of its `proc[k]`, phase by
  phase and in the order of the source; an index used several times in a row is
  listed once.  An index is an `int`, so `proc[-1]` is listed where the source
  gets to it with an index variable at -1.
-/

import ProcSched.Model.Policy

namespace ProcSched

/-- The value of `running`, `next` or `ret`: -1 for `none`. -/
def indexValue : Option Nat → Int
  | none => -1
  | some r => r

/-- The fork scan looks at every entry, up to one at which the program ends. -/
def forkScanAccesses (spawn : Nat → Process → Log → Except Log (Process × Log)) (now : Nat) :
    Nat → List Process → Log → List Int
  | _, [], _ => []
  | i, p :: ps, log =>
    (i : Int) ::
      match (if p.ready = now then spawn i p log else .ok (p, log)) with
      | .error _ => []
      | .ok (_, log) => forkScanAccesses spawn now (i + 1) ps log

/-- A loop over the whole table. -/
def allAccesses (proc : List Process) : List Int :=
  (List.range proc.length).map fun i : Nat => (i : Int)

/-- The selection loops of `next_proc` and `SJF` with the key they compare: the
    accesses, and `ret`.  `proc[ret]` is read when there is a `ret`. -/
def scanAccesses (key : Process → Int) (proc : List Process) : List Int × Option Nat :=
  (List.range proc.length).foldl (fun (acc : List Int × Option Nat) i =>
    if (entry proc i).pid = -1 ∨ (entry proc i).exec = 0 then (acc.1 ++ [(i : Int)], acc.2)
    else
      match acc.2 with
      | none => (acc.1 ++ [(i : Int)], some i)
      | some r => (acc.1 ++ [(i : Int), (r : Int)],
          if key (entry proc i) < key (entry proc r) then some i else some r)) ([], none)

namespace Loop

/-- The accesses that distinguish the loops of the three files. -/
structure Accesses where
  /-- in the choice of the next process -/
  next : State → List Int
  /-- in the context switch to `proc[next]` -/
  switch : State → Nat → List Int

/-- `proc[running].exec` behind the test `running != -1`. -/
def State.runningAccesses (s : State) : List Int := s.running.toList.map fun r : Nat => (r : Int)

/-- The choice of the next process, the context switch and the unit of time. -/
def Discipline.chooseAccesses (d : Discipline) (a : Accesses) (os : Os) (s : State) : List Int :=
  a.next s ++
    (match d.next s with
      | some (some next) => if s.running = some next then [] else a.switch s next
      | _ => []) ++
    (d.contextSwitch os s).whenNext State.runningAccesses

/-- The loop body from the state at its top. -/
def Discipline.accesses (d : Discipline) (a : Accesses) (os : Os) (s : State) : List Int :=
  s.runningAccesses ++ (d.finishTest s).whenNext fun s =>
    forkScanAccesses (d.spawn os s.now) s.now 0 s.proc s.log ++
      (d.forkReady os s).whenNext (d.chooseAccesses a os)

end Loop

/-- `next_proc`, and `proc_wakeup(proc[next].pid); proc_block(proc[running].pid);` -/
def Fifo.accesses : Loop.Accesses where
  next s :=
    match s.running with
    | some _ => []
    | none => (scanAccesses Process.ready s.proc).1
  switch s next := [(next : Int), indexValue s.running]

/-- The selection of `SJF`, and the `sched_setscheduler` for `proc[next].pid`. -/
def Sjf.accesses : Loop.Accesses where
  next s :=
    match s.running with
    | some _ => []
    | none => (scanAccesses Process.exec s.proc).1
  switch _ next := [(next : Int)]

namespace Rr

/-- The first loop of `RR_next`, left at the first forked unfinished process. -/
def firstAccesses (proc : List Process) : List Int :=
  match firstReady proc with
  | none => allAccesses proc
  | some r => (List.range (r + 1)).map fun i : Nat => (i : Int)

/-- The `while` of `RR_next` from index `ret`. -/
def rotateAccesses (proc : List Process) : Nat → Nat → List Int
  | 0, _ => []
  | fuel + 1, ret =>
    (ret : Int) ::
      if (entry proc ret).pid = -1 ∨ (entry proc ret).exec = 0 then
        rotateAccesses proc fuel ((ret + 1) % proc.length)
      else []

def accesses : Loop.Accesses where
  next s :=
    match s.running with
    | none => firstAccesses s.proc
    | some r =>
      if (s.now - s.last) % interval = 0 then
        rotateAccesses s.proc s.proc.length ((r + 1) % s.proc.length)
      else []
  switch s next := [(next : Int), indexValue s.running]

end Rr

namespace Psjf

/-- `some_process_is_ready`, left at the first waiting entry. -/
def readyAccesses (proc : List Process) : List Int :=
  match proc.findIdx? fun p => p.waiting = 1 with
  | none => allAccesses proc
  | some r => (List.range (r + 1)).map fun i : Nat => (i : Int)

/-- The choice, with `find_min_index` over the whole table, the dispatch of
    `proc[index]` and its unit. -/
def selectAccesses (s : State) : List Int :=
  readyAccesses s.proc ++
    if someProcessIsReady s.proc then allAccesses s.proc ++ [(findMinIndex s.proc : Int)] else []

/-- The loop body from the state at its top. -/
def accesses (os : Os) (s : State) : List Int :=
  if s.finished = s.proc.length then []
  else
    forkScanAccesses (spawn os s.time) s.time 0 s.proc s.log ++
      (forkReady os s).whenNext selectAccesses

end Psjf

namespace Policy

/-- The accesses of iteration `k`. -/
def accesses (P : Policy) (os : Os) (q : Qsort) (proc : List Process) (k : Nat) : List Int :=
  match P with
  | fifo => (Fifo.fifo os q proc k).whenNext (Fifo.discipline.accesses Fifo.accesses os)
  | sjf => (Sjf.sjf os q proc k).whenNext (Sjf.discipline.accesses Sjf.accesses os)
  | rr => (Rr.rrMain os q proc k).whenNext (Rr.discipline.accesses Rr.accesses os)
  | psjf => (Psjf.psjf os proc k).whenNext (Psjf.accesses os)

/-- The calls of the loop in its first `k` iterations. -/
def loopLog (P : Policy) (os : Os) (q : Qsort) (proc : List Process) (k : Nat) : Log :=
  (P.run os q proc k).state.log.drop (P.run os q proc 0).state.log.length

end Policy
end ProcSched
