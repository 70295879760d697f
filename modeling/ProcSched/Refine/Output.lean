/-
  ProcSched.Refine.Output

  The lines of a scheduler by its log.  Every line stands for a fork, a context
  switch or a finish, so what has been printed at a place of the loop can be read
  off the marks logged there (`Lines.speech_eq`).  The pids in the lines are those
  the fork scan has written to the table.
-/

import ProcSched.Model.Output
import ProcSched.Refine.Forks

namespace ProcSched

open ForkJoin (Action Kid forks Path Speech)

namespace Body

variable {σ : Type} {B : Body σ} {os : Os} {W : List Process} {o : Outcome σ}
  {acts : List (Action Int Child)} {b : Point σ}

/-- The child of `W[i]` with its lines. -/
def kid (T : Texts σ) (W : List Process) (pid : Int) (i : ℕ) : Kid Child Printf where
  state := (entry W i).child
  todo := T.first (entry W i).ready.toNat pid (entry W i).name
  last := T.last (entry W i).ready.toNat pid (entry W i).name

theorem owed_kid (os : Os) (T : Texts σ) (W : List Process) (pid : Int) (i : ℕ) :
    (kid T W pid i).owed (B.system os) = T.first (entry W i).ready.toNat pid (entry W i).name ++
      T.last (entry W i).ready.toNat pid (entry W i).name := by
  rw [Kid.owed, if_neg]
  · rfl
  · rw [Option.isNone_iff_eq_none]
    exact fun h => Bool.false_ne_true (Child.step_eq_none (c := (entry W i).child).mp h)

/-- The children have their lines from the entries they were forked for. -/
theorem Runs.kid_of_mem {T : Texts σ} {opening : List Printf}
    {acts' : List (Action Int (Kid Child Printf))} {pt : ForkJoin.Speaker (Point σ) Printf}
    (hR : B.Runs os W o) (hos : os.Healthy) (hp : B.WritesPids os)
    (h : Path ((B.system os).printing (B.voice T os)) ⟨o.launch, opening⟩ acts' pt)
    (hnodup : (forkedOf (B.logAt pt.state).marks).Nodup) :
    ∀ c ∈ forks acts', ∃ i ∈ forkedOf (B.logAt pt.state).marks,
      c = ((entry (B.procAt pt.state) i).pid, kid T W (entry (B.procAt pt.state) i).pid i) := by
  have hc := hR.calls
  rintro ⟨p, state, todo, last⟩ hk
  obtain ⟨acts₁, pt₁, pt₂, rest, h₁, hfork, htodo, hlast, hrest⟩ := h.mem_forks hk
  obtain ⟨hat, -⟩ := hR.path_at hos h₁
  -- from the fork on the pid of the entry stays
  obtain ⟨hpre, hsame⟩ := pid_of_path hc hos hp hrest hnodup
  generalize hx : Action.fork p state = x at hfork
  cases advanced hc hos hfork with
  | head s => cases hw : B.waits s <;> rw [hw] at hx <;> cases hx
  | skip _ _ => cases hx
  | tail _ => cases hx
  | @fork i s p' log hi hready hspawn =>
      obtain ⟨rfl, rfl⟩ := Action.fork.inj hx
      obtain ⟨hchild, hnow⟩ := hR.child_eq hat hi hready
      have hname : (entry (B.proc s) i).name = (entry W i).name := congrArg Child.name hchild
      have hmem := hc.mem_forkedOf hspawn
      have hpid : (entry (B.procAt pt.state) i).pid = os.fork (B.log s) := by
        rw [hsame i hmem]
        simp only [procAt, hc.lawful.proc_store, entry_set_self hi, hp.spawn _ _ _ _ _ _ hspawn]
      refine ⟨i, hpre.subset hmem, ?_⟩
      simp only [voice, hname] at htodo hlast
      rw [hpid, kid, htodo, hlast, hnow, ← hchild]
      rfl

/-! ## Lines for marks -/

/-- The lines behind the loop, at its end. -/
def closingAt (closing : σ → List Printf) : Point σ → List Printf
  | .ended (.done s) => closing s
  | _ => []

/-- The lines of a body on the table `W` are those of its marks under `line`, the
    pids in them being `pids`; `closing` are the lines behind the loop. -/
structure Lines (B : Body σ) (T : Texts σ) (W : List Process) (o : Outcome σ) (pids : ℕ → Int)
    (line : ℕ × Mark → Option Printf) (closing : σ → List Printf) : Prop where
  start : ∀ s, o = .next s → (B.log s).marks = []
  head : ∀ k s, Outcome.run B.step o k = .next s →
    (∀ i ∈ forkedOf (B.log s).marks, (entry (B.proc s) i).pid = pids i) →
    (B.log (B.head s).state).marks.filterMap line ++ closingAt closing (B.head s).toScan =
      (B.log s).marks.filterMap line ++ T.head s
  spawn : ∀ now i p log p' log', B.spawn now i p log = .ok (p', log') →
    p.name = (entry W i).name → p'.pid = pids i →
    log'.marks.filterMap line = log.marks.filterMap line ++ T.ready now p'
  tail : ∀ k s s₁ t, Outcome.run B.step o k = .next s → B.head s = .next s₁ →
    B.ScannedTo (B.proc s₁).length s₁ t →
    (B.log (B.tail t).state).marks.filterMap line =
      (B.log t).marks.filterMap line ++ T.tail t

theorem Lines.speech_eq {T : Texts σ} {pids : ℕ → Int} {line : ℕ × Mark → Option Printf}
    {closing : σ → List Printf} {opening l : List Printf}
    (hL : B.Lines T W o pids line closing) (hR : B.Runs os W o) (hos : os.Healthy)
    (hp : B.WritesPids os) (h : Speech (B.system os) (B.voice T os) o.launch opening acts l b)
    (hnodup : (forkedOf (B.logAt b).marks).Nodup)
    (hpids : ∀ i ∈ forkedOf (B.logAt b).marks, (entry (B.procAt b) i).pid = pids i) :
    l = opening ++ (B.logAt b).marks.filterMap line ++ closingAt closing b := by
  have hc := hR.calls
  induction h with
  | nil =>
      obtain ⟨s, rfl, -⟩ := hR.start
      simp [Outcome.launch, logAt, hL.start s rfl, closingAt]
  | @snoc acts l b x c h hx ih =>
      obtain ⟨hat, -⟩ := hR.path_at hos h.path
      have hadv := advanced hc hos hx
      have hpre := hadv.forkedOf_prefix hc
      have hpids' : ∀ i ∈ forkedOf (B.logAt b).marks, (entry (B.procAt b) i).pid = pids i :=
        fun i hi => (hadv.pid_eq hc hp hnodup i hi).symm.trans (hpids i (hpre.subset hi))
      rw [ih (hnodup.sublist hpre.sublist) hpids']
      -- every piece logs the marks of the lines it prints
      cases hadv with
      | head s =>
          obtain ⟨k, hs⟩ := hat
          have hlines := hL.head k s hs hpids'
          simp only [logAt_toScan, List.append_assoc, hlines]
          rfl
      | @fork i s p log hi hready hspawn =>
          have hname := congrArg Child.name (hR.child_eq hat hi hready).1
          have hpid := hpids i (hc.mem_forkedOf hspawn)
          simp only [procAt, hc.lawful.proc_store, entry_set_self hi] at hpid
          have hlines := hL.spawn _ _ _ _ _ _ hspawn hname hpid
          simp [voice, if_pos hi, if_pos hready, hspawn, closingAt, logAt, hc.lawful.log_store,
            hlines]
      | skip hi hready => simp [voice, if_pos hi, if_neg hready, closingAt, logAt]
      | @tail i t hi =>
          obtain ⟨k, s, s₁, hs, hhead, hscan⟩ := hat
          have hlen := hscan.length_eq hc.lawful
          obtain rfl : i = (B.proc s₁).length := Nat.le_antisymm hscan.le (by omega)
          have hlines := hL.tail k s s₁ t hs hhead hscan
          -- the loop is not left behind the scan
          have hend : closingAt closing (B.tail t).launch = [] := by
            cases htail : B.tail t with
            | done s' =>
                have hrun := run_of_tail hs hhead hscan
                rw [Outcome.run_succ_of_next hs, htail] at hrun
                rw [hR.leaves s s' hrun] at hhead
                cases hhead
            | _ => rfl
          rw [hend, logAt_launch, hlines]
          simp [voice, if_neg hi, closingAt, logAt]

end Body

namespace Loop

variable {d : Discipline} {os : Os} {law : ChoiceLaw} {front : SchedPolicy} {W : List Process}

/-- The lines of a loop are those of its marks under `line`. -/
structure Texts.Reads (T : Texts) (d : Discipline) (W : List Process) (pids : ℕ → Int)
    (line : ℕ × Mark → Option Printf) (closing : State → List Printf) : Prop where
  ready : ∀ t i p, p.name = (entry W i).name → p.pid = pids i →
    [(t, .fork i)].filterMap line = T.ready t p
  finish : ∀ s r, (entry s.proc r).name = (entry W r).name → (entry s.proc r).pid = pids r →
    [(s.now, .finish r)].filterMap line ++
      (if s.finish + 1 = s.proc.length then closing (d.reap s r) else []) = T.finish s r
  switch : ∀ t i, [(t, .switch i)].filterMap line = T.switch
  select : ∀ t i, line (t, .select i) = none
  decrement : ∀ t i, line (t, .decrement i) = none

/-- The running process has been forked. -/
theorem mem_forkedOf_running (hd : d.Obeys os W law) (hW : WellFormed W) {log : Log}
    (hlog : log.marks = []) {o : Outcome State} (ho : o = .next (State.initial W log)) {k r : ℕ}
    {s : State} (hs : Outcome.run (d.step os) o k = .next s) (hr : s.running = some r) :
    r < W.length ∧ r ∈ forkedOf s.log.marks := by
  obtain ⟨hI, hB⟩ := inv_of_next hd hW hlog ho hs
  obtain ⟨hi, harrived⟩ := hB.prev_released (hI.running.symm.trans hr)
  refine ⟨hi, mem_forkedOf.mpr ⟨(jobsOf W).release r, ?_⟩⟩
  have htrace : ((jobsOf W).release r, Mark.fork r) ∈ trace W (followed d os o) 1 k :=
    fork_mem_trace.mpr ⟨harrived, hi, rfl⟩
  rw [← hI.marks, List.mem_append] at htrace
  refine htrace.resolve_right fun hf => ?_
  obtain ⟨-, j, -, hj⟩ := mem_finishMarks.mp hf
  cases hj

theorem body_lines {T : Texts} {pids : ℕ → Int} {line : ℕ × Mark → Option Printf}
    {closing : State → List Printf} (hT : T.Reads d W pids line closing) (hd : d.Obeys os W law)
    (hW : WellFormed W) {log : Log} (hlog : Bare log) {o : Outcome State}
    (ho : o = .next (State.initial W log)) :
    (d.body os).Lines (d.texts T) W o pids line closing where
  start s hs := by
    obtain rfl := Outcome.next.inj (ho.symm.trans hs)
    exact hlog.marks
  head k s hs hpids := by
    rw [funext (body_step d os)] at hs
    obtain ⟨hI, -⟩ := inv_of_next hd hW hlog.marks ho hs
    show (d.finishTest s).state.log.marks.filterMap line ++ Body.closingAt closing
      (d.finishTest s).toScan = s.log.marks.filterMap line ++ (d.texts T).head s
    rcases finishTest_cases (d := d) s with ⟨htest, hkeep⟩ | ⟨r, hr, hexec, htest⟩
    · have hhead : (d.texts T).head s = [] := by
        simp only [Discipline.texts]
        cases hr : s.running with
        | none => rfl
        | some r => simp only [hkeep r hr, if_false]
      rw [htest, hhead]
      rfl
    · have hhead : (d.texts T).head s = T.finish s r := by
        simp only [Discipline.texts, hr, hexec, if_true]
      -- the entry has been forked, so its pid is the one in the line
      obtain ⟨hi, hmem⟩ := mem_forkedOf_running hd hW hlog.marks ho hs hr
      have hfinish := hT.finish s r (hI.tracks.name_eq r hi) (hpids r hmem)
      rw [htest, hhead, ← hfinish]
      split <;> simp [Outcome.toScan, Body.closingAt]
  spawn now i p log p' log' hspawn hname hpid := by
    obtain ⟨pid, new, hspawn', -, -, -, hmarks⟩ := hd.spawns now i p log
    replace hspawn : d.spawn os now i p log = .ok (p', log') := hspawn
    rw [hspawn, Except.ok.injEq, Prod.mk.injEq] at hspawn'
    obtain ⟨rfl, rfl⟩ := hspawn'
    rw [Log.marks_append, hmarks, List.filterMap_append]
    exact congrArg _ (hT.ready now i _ hname hpid)
  tail k s s₁ t _ _ _ := by
    show ((d.contextSwitch os t).bind fun s => .next s.unit).state.log.marks.filterMap line =
      t.log.marks.filterMap line ++ (d.texts T).tail t
    -- nothing is printed for the unit itself
    have hunit : ∀ s : State, s.unit.log.marks.filterMap line = s.log.marks.filterMap line := by
      intro s
      rw [(unit_spec s).2.2.2.2.1, List.filterMap_append]
      cases s.running <;> simp [hT.decrement]
    simp only [Discipline.texts, Discipline.contextSwitch]
    cases d.next t with
    | none => exact (List.append_nil _).symm
    | some next =>
        cases next with
        | none => simp [hunit]
        | some i =>
            by_cases hr : t.running = some i
            · simp [hr, hunit, hT.select]
            · have hswitch := hT.switch t.now i
              simp [hr, hunit, hd.wakeup, hT.select, ← hswitch]

end Loop

/-- The lines for one more iteration, in the order of the loop body. -/
theorem filterMap_trace_succ {τ : Type} {f : ℕ × Mark → Option τ}
    (hselect : ∀ t i, f (t, .select i) = none) (hdecrement : ∀ t i, f (t, .decrement i) = none)
    (W : List Process) (σ : Schedule ℕ) (delay t : ℕ) :
    (trace W σ delay (t + 1)).filterMap f = (trace W σ delay t).filterMap f ++
      (((forkMarks W t).filterMap f ++
        (if σ.prev t ≠ σ t then (σ t).toList else []).filterMap fun i => f (t, .switch i)) ++
        ((jobsOf W).ended σ (t + 1)).toList.filterMap fun i => f (t + delay, .finish i)) := by
  have hunit : (unitMarks t (σ t) (σ.prev t ≠ σ t)).filterMap f =
      (if σ.prev t ≠ σ t then (σ t).toList else []).filterMap fun i => f (t, .switch i) := by
    cases σ t with
    | none => simp [unitMarks]
    | some i =>
        by_cases hsame : σ.prev t = some i
        · simp [unitMarks, hsame, hselect, hdecrement]
        · simp [unitMarks, hsame, hselect, hdecrement, List.filterMap_cons]
  have hfinish : (finishMarks (t + delay) ((jobsOf W).ended σ (t + 1))).filterMap f =
      ((jobsOf W).ended σ (t + 1)).toList.filterMap fun i => f (t + delay, .finish i) := by
    cases (jobsOf W).ended σ (t + 1) <;> rfl
  rw [trace_succ, List.filterMap_append, List.filterMap_append, List.filterMap_append, hunit,
    hfinish]

/-- The lines of a schedule by the clock, without the context switches: at every
    clock the finish, if there is one, and then the arrivals. -/
theorem filterMap_trace_clock {τ : Type} {f : ℕ × Mark → Option τ}
    (hselect : ∀ t i, f (t, .select i) = none) (hdecrement : ∀ t i, f (t, .decrement i) = none)
    (hswitch : ∀ t i, f (t, .switch i) = none) (W : List Process) (σ : Schedule ℕ) (t : ℕ) :
    (trace W σ 1 t).filterMap f ++ (forkMarks W t).filterMap f =
      (List.range (t + 1)).flatMap fun c =>
        ((jobsOf W).ended σ c).toList.filterMap (fun i => f (c, .finish i)) ++
          (forkMarks W c).filterMap f := by
  induction t with
  | zero =>
      have hended : (jobsOf W).ended σ 0 = none := by simp [Jobs.ended]
      simp [trace, hended]
  | succ t ih =>
      have hnone : ∀ l : List ℕ, l.filterMap (fun i => f (t, .switch i)) = [] := fun l =>
        List.filterMap_eq_nil_iff.mpr fun i _ => hswitch t i
      -- a finish has the clock of the next iteration, whose arrivals come behind it
      rw [List.range_succ, List.flatMap_append, List.flatMap_singleton, ← ih,
        filterMap_trace_succ hselect hdecrement, hnone, List.append_nil]
      simp only [List.append_assoc]

/-- The forks of a schedule by the clock. -/
theorem forkedOf_trace_clock (W : List Process) (σ : Schedule ℕ) (delay t : ℕ) :
    forkedOf (trace W σ delay t) =
      (List.range t).flatMap fun c => (List.range W.length).filter fun i => (jobsOf W).release i = c := by
  induction t with
  | zero => rfl
  | succ t ih =>
      rw [List.range_succ, List.flatMap_append, List.flatMap_singleton, ← ih, forkedOf_trace_succ]

/-- In a complete schedule the finish of a job is at its completion. -/
theorem ended_eq_some_iff {W : List Process} {σ : Schedule ℕ} {C : ℕ → ℕ}
    (hL : (jobsOf W).Legal σ) (hW : WellFormed W) (hC : (jobsOf W).CompletesAt σ C) {i t : ℕ} :
    (jobsOf W).ended σ t = some i ↔ i < W.length ∧ C i = t := by
  have hend : ∀ c, (jobsOf W).ended σ c = some i → i < W.length ∧ C i = c := by
    intro c hc
    obtain ⟨u, -, hrun⟩ := Jobs.run_of_ended hc
    have hi := (hL u i hrun).mem
    have hiff : ∀ t, c ≤ t ↔ C i ≤ t := fun t => (le_iff_of_ended hL hc).trans (hC i hi t).symm
    exact ⟨mem_jobsOf.mp hi, Nat.le_antisymm ((hiff _).mp (Nat.le_refl _))
      ((hiff _).mpr (Nat.le_refl _))⟩
  refine ⟨hend t, ?_⟩
  rintro ⟨hi, rfl⟩
  obtain ⟨c, -, hc⟩ := Jobs.exists_ended (hW.jobs_length_pos hi)
    ((hC i (mem_jobsOf.mpr hi) _).mp (Nat.le_refl _))
  rwa [(hend c hc).2]

theorem ended_toList {W : List Process} {σ : Schedule ℕ} {C : ℕ → ℕ} (hL : (jobsOf W).Legal σ)
    (hW : WellFormed W) (hC : (jobsOf W).CompletesAt σ C) (t : ℕ) :
    ((jobsOf W).ended σ t).toList = (List.range W.length).filter fun i => C i = t := by
  have hiff := fun i => ended_eq_some_iff (i := i) (t := t) hL hW hC
  cases hended : (jobsOf W).ended σ t with
  | none =>
      refine (List.filter_eq_nil_iff.mpr fun i hi => ?_).symm
      rw [decide_eq_true_eq]
      intro hc
      have := (hiff i).mpr ⟨List.mem_range.mp hi, hc⟩
      rw [hended] at this
      cases this
  | some j =>
      -- no other job is at its completion
      obtain ⟨hj, rfl⟩ := (hiff j).mp hended
      have hself : ∀ i ∈ List.range W.length, decide (C i = C j) = (i == j) := by
        intro i hi
        rw [Bool.eq_iff_iff, decide_eq_true_eq, beq_iff_eq]
        refine ⟨fun hc => ?_, fun h => h ▸ rfl⟩
        have := (hiff i).mpr ⟨List.mem_range.mp hi, hc⟩
        rw [hended] at this
        exact (Option.some.inj this).symm
      rw [List.filter_congr hself, List.filter_beq, List.count_eq_one_of_mem List.nodup_range
        (List.mem_range.mpr hj)]
      rfl

/-! ## The four schedulers -/

/-- The line of a mark, `pids i` being the pid of the child of `V[i]`. -/
def Policy.line (P : Policy) (V : List Process) (pids : ℕ → Int) (e : ℕ × Mark) : Option Printf :=
  match P, e.2 with
  | fifo, .switch _ => some .contextSwitch
  | fifo, .finish i => some (.ended (entry V i).name e.1)
  | sjf, .finish i => some (.namePid (entry V i).name (pids i))
  | rr, .fork i => some (.readyAt (entry V i).name e.1)
  | rr, .finish i => some (.finish (entry V i).name (pids i) e.1)
  | psjf, .fork i => some (.childPid (pids i))
  | _, _ => none

/-- The lines behind the loop. -/
def Policy.closing : (P : Policy) → P.State → List Printf
  | rr => fun s : Loop.State => [.average s.wait s.proc.length]
  | fifo | sjf | psjf => fun _ => []

section

variable {W : List Process} {pids : ℕ → Int}

theorem Fifo.reads : Fifo.texts.Reads discipline W pids (Policy.fifo.line W pids)
    Policy.fifo.closing where
  ready _ _ _ _ _ := rfl
  finish s r hname _ := by
    simp [texts, Policy.line, Policy.closing, hname]
  switch _ _ := rfl
  select _ _ := rfl
  decrement _ _ := rfl

theorem Sjf.reads : Sjf.texts.Reads discipline W pids (Policy.sjf.line W pids)
    Policy.sjf.closing where
  ready _ _ _ _ _ := rfl
  finish s r hname hpid := by
    simp [texts, Policy.line, Policy.closing, hname, hpid]
  switch _ _ := rfl
  select _ _ := rfl
  decrement _ _ := rfl

theorem Rr.reads : Rr.texts.Reads discipline W pids (Policy.rr.line W pids)
    Policy.rr.closing where
  ready t i p hname _ := by simp [texts, Policy.line, hname]
  finish s r hname hpid := by
    simp [texts, Policy.line, Policy.closing, hname, hpid, Loop.Discipline.reap]
  switch _ _ := rfl
  select _ _ := rfl
  decrement _ _ := rfl

namespace Psjf

variable {os : Os} {k : ℕ} {s : State}

theorem filterMap_line (l : List (ℕ × Mark)) : l.filterMap (Policy.psjf.line W pids) =
    (forkedOf l).map fun i => .childPid (pids i) := by
  induction l with
  | nil => rfl
  | cons e l ih =>
      obtain ⟨c, m⟩ := e
      rw [← List.singleton_append, List.filterMap_append, forkedOf_append, List.map_append, ih]
      cases m <;> rfl

theorem body_lines (hos : os.Healthy) (hW : WellFormed W) (hz : ZeroWaiting W) :
    (body os).Lines (texts os) W (start os W) pids (Policy.psjf.line W pids)
      Policy.psjf.closing where
  start s hs := by
    rw [start, procAssignCpu_ok hos hos.getpid_pos (Nat.zero_le 128)] at hs
    obtain rfl := Outcome.next.inj hs
    simp [body]
  head k s hs _ := by
    obtain ⟨-, -, -, hentries, -⟩ := (body_calls hos).head s
    rw [filterMap_line, filterMap_line, hentries]
    refine congrArg _ ?_
    simp only [body]
    split <;> rfl
  spawn now i p log p' log' hspawn hname hpid := by
    obtain ⟨p₁, log₁, hspawn₁, -, hentries, -⟩ := (body_calls hos).spawn now i p log
    rw [hspawn, Except.ok.injEq, Prod.mk.injEq] at hspawn₁
    obtain ⟨rfl, rfl⟩ := hspawn₁
    have hfork := (body_writesPids hos).spawn _ _ _ _ _ _ hspawn
    have hok := hos.setscheduler_ok p'.pid .fifo blockPriority (by rw [hfork]; exact hos.fork_pos _)
    rw [filterMap_line, filterMap_line, hentries, List.map_append, texts]
    simp only [List.map_singleton, ← hpid]
    rw [if_neg (by omega)]
  tail k s s₁ t hs hhead hscan := by
    rw [filterMap_line, filterMap_line, ← ((body_calls hos).tail t).entries]
    refine (List.append_nil _).symm.trans (congrArg _ ?_)
    rw [funext (body_step os)] at hs
    obtain ⟨hI, hB⟩ := inv_of_next hos hW hz hs
    obtain rfl : s = s₁ := by
      simp only [body] at hhead
      split at hhead
      · cases hhead
      · exact Outcome.next.inj hhead
    -- the calls for the chosen process and for the one before it succeed
    have hC : AtChoice W (followed os (start os W)) k t := by
      obtain ⟨t', hfork, hC⟩ := forkReady_spec hos hW hI hB
      have heq := hscan.scan_eq
      rw [Body.scan] at heq
      rw [forkReady] at hfork
      have hsame : (Outcome.next t : Outcome State) = .next t' := heq.symm.trans hfork
      rw [Outcome.next.inj hsame]
      exact hC
    have hpos : someProcessIsReady t.proc = true →
        0 < (entry t.proc (findMinIndex t.proc)).pid := fun hready => by
      have hel := (hC.choice_spec hW).2.1 _ (choice_eq_some.mpr ⟨hready, rfl⟩)
      exact hC.pid_pos _ (mem_jobsOf.mp hel.mem) hel.released
    have hpre : t.preRunning ≠ -1 → 0 ≤ os.setscheduler t.preRunning .fifo highPriority := fun hne => by
      obtain ⟨i, hi, hreleased, hpid, -⟩ := hC.pre.resolve_left hne
      exact hos.setscheduler_ok _ _ _ (hpid ▸ hC.pid_pos i hi hreleased)
    simp only [texts]
    split
    · next h =>
      have hrunning := hos.setscheduler_ok _ .fifo blockPriority (hpos h.1)
      rw [if_neg fun hp => by have := hpre hp.1; omega, if_neg (by omega)]
      rfl
    · rfl

end Psjf

end

namespace Policy

variable {P : Policy} {os : Os} {q : Qsort} {W : List Process}

/-- The lines of each scheduler are those of its marks. -/
theorem lines (hos : os.Healthy) (hW : WellFormed W) (hz : P.Fresh W) (pids : ℕ → Int) :
    (P.body os).Lines (P.texts os) (P.table q W) (P.start os q W) pids
      (P.line (P.table q W) pids) P.closing := by
  have hT := P.table_wellFormed (q := q) hW
  cases P with
  | fifo =>
      obtain ⟨log, hlog, hstart⟩ := Fifo.start_ok hos q W
      exact Loop.body_lines Fifo.reads (Fifo.obeys hos hT (table_sorted hW (by decide))) hT hlog
        hstart
  | sjf =>
      obtain ⟨log, hlog, hstart⟩ := Sjf.start_ok hos q W
      exact Loop.body_lines Sjf.reads (Sjf.obeys hos hT) hT hlog hstart
  | rr =>
      obtain ⟨log, hlog, hstart⟩ := Rr.start_ok hos q W
      exact Loop.body_lines Rr.reads (Rr.obeys hos hT) hT hlog hstart
  | psjf => exact Psjf.body_lines hos hT (hz rfl)

end Policy
end ProcSched
