/-
  ProcSched.Model.Process

  The data the four schedulers share: `struct process` of PSJF.h, the system
  calls they make, and the log of what a run does.

  The log is the whole interaction of the parent with the kernel and with its
  own table, oldest first.  Every entry carries the clock of the iteration that
  wrote it: a system call with its arguments, or a mark for a point of the loop
  body (an entry forked, selected, switched to, decremented, counted finished).
  The kernel is the parameter `Os`; it decides the result of each `fork` from
  everything logged so far.

  Clocks and `exec` counters are unbounded integers where the source has `int`s.
-/

import Mathlib.Data.List.Basic
import Mathlib.Data.List.GetD
import Mathlib.Data.Int.Notation

namespace ProcSched

/-- `struct process` of PSJF.h. -/
structure Process where
  name : String
  ready : Int
  exec : Int
  waiting : Int
  pid : Int
  deriving DecidableEq, Inhabited

/-- The fields of a process that main reads from the input file. -/
structure Record where
  name : String
  ready : Int
  exec : Int
  deriving DecidableEq, Inhabited

/-- What main read for this entry, as long as `exec` is untouched. -/
def Process.record (p : Process) : Record := ⟨p.name, p.ready, p.exec⟩

/-- The value of an `int` computed with wrap-around. -/
def int32 (x : Int) : Int := x.bmod 0x100000000

/-- `INT_MAX` -/
def intMax : Int := 0x7fffffff

/-- A value an `int` can hold. -/
def IsInt (x : Int) : Prop := -intMax - 1 ≤ x ∧ x ≤ intMax

instance (x : Int) : Decidable (IsInt x) :=
  inferInstanceAs (Decidable (-intMax - 1 ≤ x ∧ x ≤ intMax))

/-- `proc[i]` -/
def entry (proc : List Process) (i : Nat) : Process := proc.getD i default

theorem entry_eq_getElem {proc : List Process} {i : Nat} (h : i < proc.length) :
    entry proc i = proc[i] :=
  List.getD_eq_getElem _ _ h

theorem entry_mem {proc : List Process} {i : Nat} (h : i < proc.length) : entry proc i ∈ proc := by
  rw [entry_eq_getElem h]
  exact List.getElem_mem h

/-- Tables filled with the same records have the same record everywhere, also
    past the end. -/
theorem record_eq_of_map {proc proc' : List Process}
    (h : proc.map Process.record = proc'.map Process.record) (i : Nat) :
    (entry proc i).record = (entry proc' i).record := by
  have hget : ∀ l : List Process, (l.map Process.record).getD i (Process.record default) =
      (entry l i).record := fun l => List.getD_map l default Process.record
  rw [← hget, ← hget, h]

/-- A change of `proc[i]` leaves the other entries alone. -/
theorem entry_modify {proc : List Process} {f : Process → Process} {i j : Nat}
    (hj : j < proc.length) :
    entry (proc.modify i f) j = if j = i then f (entry proc j) else entry proc j := by
  have hj' : j < (proc.modify i f).length := by rw [List.length_modify]; exact hj
  rw [entry_eq_getElem hj', entry_eq_getElem hj, List.getElem_modify]
  by_cases h : i = j
  · rw [if_pos h, if_pos h.symm]
  · rw [if_neg h, if_neg fun he => h he.symm]

/-! ## System calls -/

/-- The scheduling policies the program asks for. -/
inductive SchedPolicy where
  /-- `SCHED_OTHER` -/
  | other
  /-- `SCHED_FIFO` -/
  | fifo
  /-- `SCHED_IDLE` -/
  | idle
  deriving DecidableEq

/-- A system call of the parent. -/
inductive Call where
  /-- `fork()` returning `ret` in the parent -/
  | fork (ret : Int)
  /-- `sched_setaffinity` to one core -/
  | setaffinity (pid : Int) (core : Nat)
  /-- `sched_setscheduler` -/
  | setscheduler (pid : Int) (policy : SchedPolicy) (priority : Int)
  /-- `waitpid` -/
  | waitpid (pid : Int)
  deriving DecidableEq

/-- A point of a loop body, with the index of the table entry it is about. -/
inductive Mark where
  /-- the fork for `proc[i]` was made, whatever `fork` returned -/
  | fork (i : Nat)
  /-- `proc[i]` is the process to run in this unit -/
  | select (i : Nat)
  /-- the context-switch block was entered for `proc[i]` -/
  | switch (i : Nat)
  /-- `proc[i].exec--` -/
  | decrement (i : Nat)
  /-- the finish counter was incremented for `proc[i]` -/
  | finish (i : Nat)
  deriving DecidableEq

inductive Event where
  | call (c : Call)
  | mark (m : Mark)
  deriving DecidableEq

/-- What happened so far, oldest first, with the clock of the iteration. -/
abbrev Log := List (Nat × Event)

namespace Log

/-- The marks of a log. -/
def marks (log : Log) : List (Nat × Mark) :=
  log.filterMap fun e =>
    match e.2 with
    | .mark m => some (e.1, m)
    | .call _ => none

/-- The pids `fork` has returned. -/
def forked (log : Log) : List Int :=
  log.filterMap fun e =>
    match e.2 with
    | .call (.fork ret) => some ret
    | _ => none

/-- The calls of `fork`, with their clocks and results. -/
def forkCalls (log : Log) : List (Nat × Int) :=
  log.filterMap fun e =>
    match e.2 with
    | .call (.fork ret) => some (e.1, ret)
    | _ => none

/-- The clocks at which `m` happened. -/
def stamps (log : Log) (m : Mark) : List Nat :=
  (log.marks.filter fun e => e.2 = m).map Prod.fst

/-- The entry decremented in the iteration with clock `t`. -/
def decremented (log : Log) (t : Nat) : Option Nat :=
  log.marks.findSome? fun e =>
    match e.2 with
    | .decrement i => if e.1 = t then some i else none
    | _ => none

/-- The real-time priority last set for `pid`, starting from `acc`. -/
def priorityFrom (pid : Int) : Option Int → Log → Option Int
  | acc, [] => acc
  | acc, (_, .call (.setscheduler p _ prio)) :: log =>
    priorityFrom pid (if p = pid then some prio else acc) log
  | acc, _ :: log => priorityFrom pid acc log

/-- The real-time priority last set for `pid`. -/
def priority (log : Log) (pid : Int) : Option Int := priorityFrom pid none log

/-- The pids passed to `waitpid`, with the clocks of the calls. -/
def reaped (log : Log) : List (Nat × Int) :=
  log.filterMap fun e =>
    match e.2 with
    | .call (.waitpid pid) => some (e.1, pid)
    | _ => none

/-- The pids passed to `sched_setscheduler`. -/
def scheduled (log : Log) : List Int :=
  log.filterMap fun e =>
    match e.2 with
    | .call (.setscheduler pid _ _) => some pid
    | _ => none

/-- The pids passed to `sched_setscheduler` with `SCHED_IDLE` or `SCHED_OTHER`:
    those passed to `proc_block` or `proc_wakeup`, and those SJF.c demotes. -/
def blockedOrWoken (log : Log) : List Int :=
  log.filterMap fun e =>
    match e.2 with
    | .call (.setscheduler pid .idle _) => some pid
    | .call (.setscheduler pid .other _) => some pid
    | _ => none

/-- The scheduling policy last set for `pid`, if one was set. -/
def policy (log : Log) (pid : Int) : Option SchedPolicy :=
  log.reverse.findSome? fun e =>
    match e.2 with
    | .call (.setscheduler p policy _) => if p = pid then some policy else none
    | _ => none

@[simp] theorem marks_nil : marks [] = [] := rfl

@[simp] theorem marks_append (l m : Log) : marks (l ++ m) = marks l ++ marks m :=
  List.filterMap_append

@[simp] theorem marks_cons_call (t : Nat) (c : Call) (l : Log) :
    marks ((t, .call c) :: l) = marks l := rfl

@[simp] theorem marks_cons_mark (t : Nat) (m : Mark) (l : Log) :
    marks ((t, .mark m) :: l) = (t, m) :: marks l := rfl

@[simp] theorem forked_nil : forked [] = [] := rfl

@[simp] theorem forked_append (l m : Log) : forked (l ++ m) = forked l ++ forked m :=
  List.filterMap_append

@[simp] theorem forked_cons_fork (t : Nat) (ret : Int) (l : Log) :
    forked ((t, .call (.fork ret)) :: l) = ret :: forked l := rfl

@[simp] theorem forked_cons_mark (t : Nat) (m : Mark) (l : Log) :
    forked ((t, .mark m) :: l) = forked l := rfl

@[simp] theorem forked_cons_setaffinity (t : Nat) (pid : Int) (core : Nat) (l : Log) :
    forked ((t, .call (.setaffinity pid core)) :: l) = forked l := rfl

@[simp] theorem forked_cons_setscheduler (t : Nat) (pid : Int) (p : SchedPolicy) (prio : Int)
    (l : Log) : forked ((t, .call (.setscheduler pid p prio)) :: l) = forked l := rfl

@[simp] theorem forked_cons_waitpid (t : Nat) (pid : Int) (l : Log) :
    forked ((t, .call (.waitpid pid)) :: l) = forked l := rfl

@[simp] theorem forkCalls_nil : forkCalls [] = [] := rfl

@[simp] theorem forkCalls_append (l m : Log) : forkCalls (l ++ m) = forkCalls l ++ forkCalls m :=
  List.filterMap_append

@[simp] theorem forkCalls_cons_fork (t : Nat) (ret : Int) (l : Log) :
    forkCalls ((t, .call (.fork ret)) :: l) = (t, ret) :: forkCalls l := rfl

@[simp] theorem forkCalls_cons_mark (t : Nat) (m : Mark) (l : Log) :
    forkCalls ((t, .mark m) :: l) = forkCalls l := rfl

@[simp] theorem forkCalls_cons_setaffinity (t : Nat) (pid : Int) (core : Nat) (l : Log) :
    forkCalls ((t, .call (.setaffinity pid core)) :: l) = forkCalls l := rfl

@[simp] theorem forkCalls_cons_setscheduler (t : Nat) (pid : Int) (p : SchedPolicy) (prio : Int)
    (l : Log) : forkCalls ((t, .call (.setscheduler pid p prio)) :: l) = forkCalls l := rfl

@[simp] theorem forkCalls_cons_waitpid (t : Nat) (pid : Int) (l : Log) :
    forkCalls ((t, .call (.waitpid pid)) :: l) = forkCalls l := rfl

theorem map_forkCalls (log : Log) : log.forkCalls.map Prod.snd = log.forked := by
  induction log with
  | nil => rfl
  | cons e log ih =>
      obtain ⟨t, c | m⟩ := e
      · cases c with
        | fork ret => exact congrArg (ret :: ·) ih
        | _ => exact ih
      · exact ih

@[simp] theorem priorityFrom_nil (pid : Int) (acc : Option Int) :
    priorityFrom pid acc [] = acc := rfl

@[simp] theorem priorityFrom_cons_setscheduler (pid : Int) (acc : Option Int) (t : Nat) (p : Int)
    (policy : SchedPolicy) (prio : Int) (l : Log) :
    priorityFrom pid acc ((t, .call (.setscheduler p policy prio)) :: l) =
      priorityFrom pid (if p = pid then some prio else acc) l := rfl

@[simp] theorem priorityFrom_cons_mark (pid : Int) (acc : Option Int) (t : Nat) (m : Mark)
    (l : Log) : priorityFrom pid acc ((t, .mark m) :: l) = priorityFrom pid acc l := rfl

@[simp] theorem priorityFrom_cons_fork (pid : Int) (acc : Option Int) (t : Nat) (ret : Int)
    (l : Log) : priorityFrom pid acc ((t, .call (.fork ret)) :: l) = priorityFrom pid acc l := rfl

@[simp] theorem priorityFrom_cons_setaffinity (pid : Int) (acc : Option Int) (t : Nat) (p : Int)
    (core : Nat) (l : Log) :
    priorityFrom pid acc ((t, .call (.setaffinity p core)) :: l) = priorityFrom pid acc l := rfl

@[simp] theorem priorityFrom_cons_waitpid (pid : Int) (acc : Option Int) (t : Nat) (p : Int)
    (l : Log) : priorityFrom pid acc ((t, .call (.waitpid p)) :: l) = priorityFrom pid acc l := rfl

theorem priorityFrom_append (pid : Int) (acc : Option Int) (l m : Log) :
    priorityFrom pid acc (l ++ m) = priorityFrom pid (priorityFrom pid acc l) m := by
  induction l generalizing acc with
  | nil => rfl
  | cons e l ih =>
      obtain ⟨t, c | m⟩ := e
      · cases c <;> exact ih _
      · exact ih _

@[simp] theorem priority_append (l m : Log) (pid : Int) :
    priority (l ++ m) pid = priorityFrom pid (priority l pid) m :=
  priorityFrom_append pid none l m

@[simp] theorem reaped_nil : reaped [] = [] := rfl

@[simp] theorem reaped_append (l m : Log) : reaped (l ++ m) = reaped l ++ reaped m :=
  List.filterMap_append

@[simp] theorem reaped_cons_waitpid (t : Nat) (pid : Int) (l : Log) :
    reaped ((t, .call (.waitpid pid)) :: l) = (t, pid) :: reaped l := rfl

@[simp] theorem reaped_cons_mark (t : Nat) (m : Mark) (l : Log) :
    reaped ((t, .mark m) :: l) = reaped l := rfl

@[simp] theorem reaped_cons_fork (t : Nat) (ret : Int) (l : Log) :
    reaped ((t, .call (.fork ret)) :: l) = reaped l := rfl

@[simp] theorem reaped_cons_setaffinity (t : Nat) (pid : Int) (core : Nat) (l : Log) :
    reaped ((t, .call (.setaffinity pid core)) :: l) = reaped l := rfl

@[simp] theorem reaped_cons_setscheduler (t : Nat) (pid : Int) (p : SchedPolicy) (prio : Int)
    (l : Log) : reaped ((t, .call (.setscheduler pid p prio)) :: l) = reaped l := rfl

@[simp] theorem scheduled_nil : scheduled [] = [] := rfl

@[simp] theorem scheduled_append (l m : Log) : scheduled (l ++ m) = scheduled l ++ scheduled m :=
  List.filterMap_append

@[simp] theorem scheduled_cons_setscheduler (t : Nat) (pid : Int) (p : SchedPolicy) (prio : Int)
    (l : Log) : scheduled ((t, .call (.setscheduler pid p prio)) :: l) = pid :: scheduled l := rfl

@[simp] theorem scheduled_cons_mark (t : Nat) (m : Mark) (l : Log) :
    scheduled ((t, .mark m) :: l) = scheduled l := rfl

@[simp] theorem scheduled_cons_fork (t : Nat) (ret : Int) (l : Log) :
    scheduled ((t, .call (.fork ret)) :: l) = scheduled l := rfl

@[simp] theorem scheduled_cons_setaffinity (t : Nat) (pid : Int) (core : Nat) (l : Log) :
    scheduled ((t, .call (.setaffinity pid core)) :: l) = scheduled l := rfl

@[simp] theorem scheduled_cons_waitpid (t : Nat) (pid : Int) (l : Log) :
    scheduled ((t, .call (.waitpid pid)) :: l) = scheduled l := rfl

@[simp] theorem blockedOrWoken_nil : blockedOrWoken [] = [] := rfl

@[simp] theorem blockedOrWoken_append (l m : Log) :
    blockedOrWoken (l ++ m) = blockedOrWoken l ++ blockedOrWoken m :=
  List.filterMap_append

@[simp] theorem blockedOrWoken_cons_fifo (t : Nat) (pid prio : Int) (l : Log) :
    blockedOrWoken ((t, .call (.setscheduler pid .fifo prio)) :: l) = blockedOrWoken l := rfl

@[simp] theorem blockedOrWoken_cons_mark (t : Nat) (m : Mark) (l : Log) :
    blockedOrWoken ((t, .mark m) :: l) = blockedOrWoken l := rfl

@[simp] theorem blockedOrWoken_cons_fork (t : Nat) (ret : Int) (l : Log) :
    blockedOrWoken ((t, .call (.fork ret)) :: l) = blockedOrWoken l := rfl

@[simp] theorem blockedOrWoken_cons_setaffinity (t : Nat) (pid : Int) (core : Nat) (l : Log) :
    blockedOrWoken ((t, .call (.setaffinity pid core)) :: l) = blockedOrWoken l := rfl

theorem blockedOrWoken_subset (log : Log) : log.blockedOrWoken ⊆ log.scheduled := by
  intro pid h
  obtain ⟨⟨t, e⟩, hmem, hpid⟩ := List.mem_filterMap.mp h
  refine List.mem_filterMap.mpr ⟨(t, e), hmem, ?_⟩
  simp only at hpid ⊢
  split at hpid
  · exact hpid
  · exact hpid
  · cases hpid

@[simp] theorem policy_nil (pid : Int) : policy [] pid = none := rfl

/-- What the later calls do not set is as the earlier ones left it. -/
@[simp] theorem policy_append (l m : Log) (pid : Int) :
    policy (l ++ m) pid = (policy m pid).or (policy l pid) := by
  rw [policy, List.reverse_append, List.findSome?_append]
  rfl

theorem policy_cons (e : Nat × Event) (l : Log) (pid : Int) :
    policy (e :: l) pid = (policy l pid).or (policy [e] pid) :=
  policy_append [e] l pid

@[simp] theorem policy_cons_setscheduler (t : Nat) (p : Int) (pol : SchedPolicy) (prio : Int)
    (l : Log) (pid : Int) : policy ((t, .call (.setscheduler p pol prio)) :: l) pid =
      (policy l pid).or (if p = pid then some pol else none) := by
  rw [policy_cons]
  by_cases h : p = pid <;> simp [policy, h]

@[simp] theorem policy_cons_mark (t : Nat) (m : Mark) (l : Log) (pid : Int) :
    policy ((t, .mark m) :: l) pid = policy l pid := by
  rw [policy_cons]
  exact Option.or_none

@[simp] theorem policy_cons_fork (t : Nat) (ret : Int) (l : Log) (pid : Int) :
    policy ((t, .call (.fork ret)) :: l) pid = policy l pid := by
  rw [policy_cons]
  exact Option.or_none

@[simp] theorem policy_cons_setaffinity (t : Nat) (p : Int) (core : Nat) (l : Log) (pid : Int) :
    policy ((t, .call (.setaffinity p core)) :: l) pid = policy l pid := by
  rw [policy_cons]
  exact Option.or_none

@[simp] theorem policy_cons_waitpid (t : Nat) (p : Int) (l : Log) (pid : Int) :
    policy ((t, .call (.waitpid p)) :: l) pid = policy l pid := by
  rw [policy_cons]
  exact Option.or_none

end Log

/-- The kernel and the memory around the table, as far as a scheduler sees
    them. -/
structure Os where
  /-- result of the next `fork` -/
  fork : Log → Int
  /-- result of `sched_setaffinity` -/
  setaffinity : Int → Nat → Int
  /-- result of `sched_setscheduler` -/
  setscheduler : Int → SchedPolicy → Int → Int
  /-- `getpid()` of the scheduler -/
  getpid : Int
  /-- the value of `proc[-1].pid`, memory in front of the table -/
  outside : Int

/-- Forks succeed with fresh positive pids, and the calls for an existing
    process succeed. -/
structure Os.Healthy (os : Os) : Prop where
  fork_pos : ∀ log, 0 < os.fork log
  fork_fresh : ∀ log, os.fork log ∉ log.forked
  setaffinity_ok : ∀ pid core, 0 < pid → 0 ≤ os.setaffinity pid core
  setscheduler_ok : ∀ pid policy prio, 0 < pid → 0 ≤ os.setscheduler pid policy prio
  getpid_pos : 0 < os.getpid

/-- A kernel that counts its pids upwards and refuses nothing. -/
def Os.counting : Os where
  fork log := log.forked.foldl max 1000 + 1
  setaffinity _ _ := 0
  setscheduler _ _ _ := 0
  getpid := 1000
  outside := 0

theorem le_foldl_max (l : List Int) (b : Int) : b ≤ l.foldl max b := by
  induction l generalizing b with
  | nil => exact Int.le_refl b
  | cons x l ih => exact Int.le_trans (Int.le_max_left b x) (ih (max b x))

theorem mem_le_foldl_max {l : List Int} {x : Int} (hx : x ∈ l) (b : Int) : x ≤ l.foldl max b := by
  induction l generalizing b with
  | nil => simp at hx
  | cons y l ih =>
      rcases List.mem_cons.mp hx with rfl | hx
      · exact Int.le_trans (Int.le_max_right b x) (le_foldl_max l _)
      · exact ih hx _

theorem Os.counting_healthy : Os.counting.Healthy where
  fork_pos log := by
    have := le_foldl_max log.forked 1000
    simp only [counting]
    omega
  fork_fresh log hmem := by
    have := mem_le_foldl_max hmem 1000
    simp only [counting] at this
    omega
  setaffinity_ok _ _ _ := Int.le_refl 0
  setscheduler_ok _ _ _ _ := Int.le_refl 0
  getpid_pos := by decide

/-! ## Calls shared by the source files -/

/-- `sched_setscheduler(pid, policy, &param)`, its result ignored. -/
def schedSetscheduler (now : Nat) (pid : Int) (policy : SchedPolicy) (priority : Int)
    (log : Log) : Log :=
  log ++ [(now, .call (.setscheduler pid policy priority))]

/-- `proc_wakeup` of FIFO.c and RR.c. -/
def procWakeup (now : Nat) (pid : Int) (log : Log) : Log :=
  schedSetscheduler now pid .other 0 log

/-- `proc_block` of FIFO.c and RR.c. -/
def procBlock (now : Nat) (pid : Int) (log : Log) : Log :=
  schedSetscheduler now pid .idle 0 log

/-- `proc_assign_cpu` of FIFO.c: the program ends if the call fails. -/
def Fifo.procAssignCpu (os : Os) (now : Nat) (pid : Int) (core : Nat) (log : Log) :
    Except Log Log :=
  let log := log ++ [(now, .call (.setaffinity pid core))]
  if os.setaffinity pid core < 0 then .error log else .ok log

/-- `proc_assign_cpu` of PSJF.c, also used by RR.c and SJF.c: it refuses a core
    above `sizeof(cpu_set_t)` before it makes the call. -/
def Psjf.procAssignCpu (os : Os) (now : Nat) (pid : Int) (core : Nat) (log : Log) :
    Except Log Log :=
  if core > 128 then .ok log else Fifo.procAssignCpu os now pid core log

/-- `proc_exec` of FIFO.c and RR.c in the parent, with the file's own
    `proc_assign_cpu`: -1 if the fork fails. -/
def procExec (assign : Int → Nat → Log → Except Log Log) (os : Os) (now : Nat) (log : Log) :
    Except Log (Int × Log) :=
  let pid := os.fork log
  let log := log ++ [(now, .call (.fork pid))]
  if pid < 0 then .ok (-1, log)
  else (assign pid 1 log).map fun log => (pid, log)

/-- `for (i = 0; i < n; i++) if (proc[i].ready == now) ...`, the body being
    `spawn`; the program may end in the middle. -/
def forkScan (spawn : Nat → Process → Log → Except Log (Process × Log)) (now : Nat) :
    Nat → List Process → Log → Except Log (List Process × Log)
  | _, [], log => .ok ([], log)
  | i, p :: ps, log =>
    match (if p.ready = now then spawn i p log else .ok (p, log)) with
    | .error log => .error log
    | .ok (p, log) =>
      match forkScan spawn now (i + 1) ps log with
      | .error log => .error log
      | .ok (ps, log) => .ok (p :: ps, log)

end ProcSched
