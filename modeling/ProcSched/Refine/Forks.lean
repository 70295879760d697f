/-
  ProcSched.Refine.Forks

  The forks of a run.  The fork scan writes the pid of a child to the entry it was
  forked for, which keeps it (`pid_of_path`), and `fork` is called nowhere else,
  so its calls are those for the entries in the order of their marks, each at the
  ready time (`forkCalls_eq`).
-/

import ProcSched.Refine.System

namespace ProcSched

open ForkJoin (Action forks Path)

theorem mem_forkedOf {l : List (ℕ × Mark)} {i : ℕ} : i ∈ forkedOf l ↔ ∃ c, (c, .fork i) ∈ l := by
  rw [forkedOf, List.mem_filterMap]
  constructor
  · rintro ⟨⟨c, m⟩, hm, h⟩
    cases m with
    | fork j =>
        obtain rfl := Option.some.inj h
        exact ⟨c, hm⟩
    | _ => cases h
  · rintro ⟨c, hm⟩
    exact ⟨_, hm, rfl⟩

theorem pid_modify (l : List Process) {f : Process → Process} (hf : ∀ p, (f p).pid = p.pid)
    (i j : ℕ) : (entry (l.modify i f) j).pid = (entry l j).pid := by
  by_cases hj : j < l.length
  · rw [entry_modify hj]
    split
    · exact hf _
    · rfl
  · have hle : l.length ≤ j := Nat.le_of_not_lt hj
    rw [entry, entry, List.getD_eq_default _ _ hle,
      List.getD_eq_default _ _ (by rw [List.length_modify]; exact hle)]

namespace Body

variable {σ : Type}

/-- The table of the parent. -/
def procAt (B : Body σ) : Point σ → List Process
  | .top s => B.proc s
  | .scan _ s => B.proc s
  | .ended r => B.proc r.state

variable {B : Body σ} {os : Os} {W : List Process} {o : Outcome σ} {acts : List (Action Int Child)}
  {b c : Point σ} {x : Action Int Child}

@[simp] theorem procAt_toScan (B : Body σ) (r : Outcome σ) :
    B.procAt r.toScan = B.proc r.state := by
  cases r <;> rfl

@[simp] theorem procAt_launch (B : Body σ) (r : Outcome σ) :
    B.procAt r.launch = B.proc r.state := by
  cases r <;> rfl

/-! ## Pids in the table -/

/-- The fork scan writes the pid of the child, and nothing else writes pids. -/
structure WritesPids (B : Body σ) (os : Os) : Prop where
  spawn : ∀ now i p log p' log', B.spawn now i p log = .ok (p', log') → p'.pid = os.fork log
  tail : ∀ s i, (entry (B.proc (B.tail s).state) i).pid = (entry (B.proc s) i).pid

theorem entry_set_self {proc : List Process} {i : ℕ} {p : Process} (hi : i < proc.length) :
    entry (proc.set i p) i = p := by
  rw [entry_eq_getElem (by rw [List.length_set]; exact hi), List.getElem_set_self]

theorem entry_set_ne {proc : List Process} {i j : ℕ} {p : Process} (hij : i ≠ j) :
    entry (proc.set i p) j = entry proc j := by
  rw [entry, entry, List.getD_eq_getElem?_getD, List.getElem?_set_ne hij,
    ← List.getD_eq_getElem?_getD]

theorem Calls.mem_forkedOf (hc : B.Calls os) {i : ℕ} {s : σ} {p : Process} {log : Log}
    (h : B.spawn (B.now s) i (entry (B.proc s) i) (B.log s) = .ok (p, log)) :
    i ∈ forkedOf (B.logAt (.scan (i + 1) (B.store s ((B.proc s).set i p) log))).marks := by
  obtain ⟨p', log', hspawn, -, hentries, -⟩ :=
    hc.spawn (B.now s) i (entry (B.proc s) i) (B.log s)
  rw [h, Except.ok.injEq, Prod.mk.injEq] at hspawn
  simp [logAt, hc.lawful.log_store, hspawn.2, hentries]

/-- A piece adds the entries it forks. -/
theorem Advanced.forkedOf_prefix (hc : B.Calls os) (h : Advanced B os b x c) :
    forkedOf (B.logAt b).marks <+: forkedOf (B.logAt c).marks := by
  cases h with
  | head s =>
      rw [logAt_toScan, (hc.head s).2.2.2.1]
      exact List.prefix_refl _
  | @fork i s p log _ _ hspawn =>
      obtain ⟨p', log', hspawn', -, hentries, -⟩ :=
        hc.spawn (B.now s) i (entry (B.proc s) i) (B.log s)
      rw [hspawn, Except.ok.injEq, Prod.mk.injEq] at hspawn'
      simp only [logAt, hc.lawful.log_store, hspawn'.2, hentries]
      exact List.prefix_append _ _
  | skip _ _ => exact List.prefix_refl _
  | @tail i s _ =>
      rw [logAt_launch, (hc.tail s).entries]
      exact List.prefix_refl _

/-- It leaves the pids of the entries alone that have been forked before. -/
theorem Advanced.pid_eq (hc : B.Calls os) (hp : B.WritesPids os) (h : Advanced B os b x c)
    (hnodup : (forkedOf (B.logAt c).marks).Nodup) :
    ∀ i ∈ forkedOf (B.logAt b).marks, (entry (B.procAt c) i).pid = (entry (B.procAt b) i).pid := by
  cases h with
  | head s =>
      intro i _
      rw [procAt_toScan, (hc.head s).1]
      rfl
  | @fork i s p log _ _ hspawn =>
      obtain ⟨p', log', hspawn', -, hentries, -⟩ :=
        hc.spawn (B.now s) i (entry (B.proc s) i) (B.log s)
      rw [hspawn, Except.ok.injEq, Prod.mk.injEq] at hspawn'
      simp only [logAt, hc.lawful.log_store, hspawn'.2, hentries, List.nodup_append] at hnodup
      -- the pid is written to an entry that has not been forked before
      intro j hj
      have hij : i ≠ j := fun he => hnodup.2.2 j hj i (List.mem_singleton_self i) he.symm
      simp only [procAt, hc.lawful.proc_store, entry_set_ne hij]
  | skip _ _ => exact fun i _ => rfl
  | @tail i s _ =>
      intro j _
      rw [procAt_launch, hp.tail]
      rfl

/-- The parent's children, by the entries they were forked for. -/
theorem Runs.forks_eq (hR : B.Runs os W o) (hos : os.Healthy) (hp : B.WritesPids os)
    (h : Path (B.system os) o.launch acts b) (hnodup : (forkedOf (B.logAt b).marks).Nodup) :
    forks acts = (forkedOf (B.logAt b).marks).map fun i =>
      ((entry (B.procAt b) i).pid, (entry W i).child) := by
  have hc := hR.calls
  induction h with
  | nil =>
      obtain ⟨s, rfl, -, hentries, -⟩ := hR.start
      simp [Outcome.launch, logAt, hentries]
  | @snoc acts b x c h hx ih =>
      obtain ⟨hat, -⟩ := hR.path_at hos h
      have hadv := advanced hc hos hx
      -- the pids written before are still there
      have hold : forks acts = (forkedOf (B.logAt b).marks).map fun i =>
          ((entry (B.procAt c) i).pid, (entry W i).child) := by
        rw [ih (hnodup.sublist (hadv.forkedOf_prefix hc).sublist)]
        refine List.map_congr_left fun i hi => ?_
        rw [hadv.pid_eq hc hp hnodup i hi]
      rw [ForkJoin.forks_append, hold]
      cases hadv with
      | head s =>
          rw [logAt_toScan, (hc.head s).2.2.2.1]
          cases B.waits s <;> exact List.append_nil _
      | @fork i s p log hi hready hspawn =>
          obtain ⟨p', log', hspawn', -, hentries, -⟩ :=
            hc.spawn (B.now s) i (entry (B.proc s) i) (B.log s)
          rw [hspawn, Except.ok.injEq, Prod.mk.injEq] at hspawn'
          obtain ⟨rfl, rfl⟩ := hspawn'
          -- the child is a copy of the entry, which is still as in W
          simp [logAt, procAt, hc.lawful.log_store, hc.lawful.proc_store, hentries,
            entry_set_self hi, hp.spawn _ _ _ _ _ _ hspawn, (hR.child_eq hat hi hready).1]
      | skip _ _ => exact List.append_nil _
      | @tail i s _ =>
          rw [logAt_launch, (hc.tail s).entries]
          exact List.append_nil _

/-- The pids of the forked entries are all different. -/
theorem Runs.pid_inj (hR : B.Runs os W o) (hos : os.Healthy) (hp : B.WritesPids os)
    (h : Path (B.system os) o.launch acts b) (hnodup : (forkedOf (B.logAt b).marks).Nodup) :
    ∀ i ∈ forkedOf (B.logAt b).marks, ∀ j ∈ forkedOf (B.logAt b).marks,
      (entry (B.procAt b) i).pid = (entry (B.procAt b) j).pid → i = j := by
  have hpids := (hR.sane hos).nodup h
  rw [hR.forks_eq hos hp h hnodup, List.map_map] at hpids
  exact fun i hi j hj => List.inj_on_of_nodup_map hpids hi hj

/-- An entry keeps the pid of its fork. -/
theorem pid_of_path (hc : B.Calls os) (hos : os.Healthy) (hp : B.WritesPids os)
    (h : Path (B.system os) b acts c) (hnodup : (forkedOf (B.logAt c).marks).Nodup) :
    forkedOf (B.logAt b).marks <+: forkedOf (B.logAt c).marks ∧
      ∀ i ∈ forkedOf (B.logAt b).marks,
        (entry (B.procAt c) i).pid = (entry (B.procAt b) i).pid := by
  induction h with
  | nil => exact ⟨List.prefix_refl _, fun i _ => rfl⟩
  | snoc h hx ih =>
      have hadv := advanced hc hos hx
      have hpre := hadv.forkedOf_prefix hc
      obtain ⟨hpre', hsame⟩ := ih (hnodup.sublist hpre.sublist)
      refine ⟨hpre'.trans hpre, fun i hi => ?_⟩
      rw [hadv.pid_eq hc hp hnodup i (hpre'.subset hi)]
      exact hsame i hi

/-! ## The calls of `fork` -/

/-- `fork` is called in the fork scan only, at the clock of the iteration. -/
structure StampsForks (B : Body σ) (os : Os) : Prop where
  head : ∀ s, (B.log (B.head s).state).forkCalls = (B.log s).forkCalls
  spawn : ∀ now i p log p' log', B.spawn now i p log = .ok (p', log') →
    log'.forkCalls = log.forkCalls ++ [(now, os.fork log)]
  tail : ∀ s, (B.log (B.tail s).state).forkCalls = (B.log s).forkCalls

/-- The clocks of the calls are the ready times of the forked entries. -/
theorem Runs.fork_clocks (hR : B.Runs os W o) (hos : os.Healthy) (hf : B.StampsForks os)
    (h : Path (B.system os) o.launch acts b) :
    (B.logAt b).forkCalls.map Prod.fst =
      (forkedOf (B.logAt b).marks).map fun i => (entry W i).ready.toNat := by
  have hc := hR.calls
  induction h with
  | nil =>
      obtain ⟨s, rfl, hforked, hentries, -⟩ := hR.start
      rw [← Log.map_forkCalls, List.map_eq_nil_iff] at hforked
      simp [Outcome.launch, logAt, hforked, hentries]
  | @snoc acts b x c h hx ih =>
      obtain ⟨hat, -⟩ := hR.path_at hos h
      cases advanced hc hos hx with
      | head s =>
          rw [logAt_toScan, hf.head, (hc.head s).2.2.2.1]
          exact ih
      | @fork i s p log hi hready hspawn =>
          obtain ⟨p', log', hspawn', -, hentries, -⟩ :=
            hc.spawn (B.now s) i (entry (B.proc s) i) (B.log s)
          have hcalls := hf.spawn _ _ _ _ _ _ hspawn
          rw [hspawn, Except.ok.injEq, Prod.mk.injEq] at hspawn'
          -- the entry is forked when the clock is its ready time
          have hnow := (hR.child_eq hat hi hready).2
          simp only [logAt, hc.lawful.log_store] at ih ⊢
          rw [hcalls, hspawn'.2, hentries, List.map_append, List.map_append, ih]
          simp [hnow]
      | skip _ _ => exact ih
      | @tail i s _ =>
          rw [logAt_launch, hf.tail, (hc.tail s).entries]
          exact ih

/-- The calls of `fork`, one for each mark. -/
theorem Runs.forkCalls_eq (hR : B.Runs os W o) (hos : os.Healthy) (hp : B.WritesPids os)
    (hf : B.StampsForks os) (h : Path (B.system os) o.launch acts b)
    (hnodup : (forkedOf (B.logAt b).marks).Nodup) :
    (B.logAt b).forkCalls = (forkedOf (B.logAt b).marks).map fun i =>
      ((entry W i).ready.toNat, (entry (B.procAt b) i).pid) := by
  obtain ⟨-, hlog⟩ := hR.path_at hos h
  have hpids : (B.logAt b).forkCalls.map Prod.snd =
      (forkedOf (B.logAt b).marks).map fun i => (entry (B.procAt b) i).pid := by
    rw [Log.map_forkCalls, ← hlog.pids, hR.forks_eq hos hp h hnodup, List.map_map]
    rfl
  rw [List.zip_of_prod (hR.fork_clocks hos hf h) hpids, List.zip_map']

end Body

/-! ## The four schedulers -/

namespace Loop

variable {d : Discipline} {os : Os} {front : SchedPolicy}

theorem contextSwitch_proc (s : State) : (d.contextSwitch os s).state.proc = s.proc := by
  rw [Discipline.contextSwitch]
  cases d.next s with
  | none => rfl
  | some next =>
      cases next with
      | none => rfl
      | some i =>
          by_cases hr : s.running = some i
          · simp only [hr, if_true, Outcome.state_next]
          · simp only [hr, if_false, Outcome.state_next]

theorem body_writesPids (hc : d.Calls os front) : (d.body os).WritesPids os where
  spawn now i p log p' log' h := (hc.spawn now i p log p' log' h).1
  tail s i := by
    show (entry ((d.contextSwitch os s).bind fun s => .next s.unit).state.proc i).pid = _
    have hproc : (d.contextSwitch os s).state.proc = s.proc := contextSwitch_proc s
    cases hswitch : d.contextSwitch os s with
    | next s' =>
        rw [hswitch, Outcome.state_next] at hproc
        rw [Outcome.bind_next, Outcome.state_next, unit_pid, hproc]
        rfl
    | _ =>
        rw [hswitch] at hproc
        exact congrArg (fun l => (entry l i).pid) hproc

theorem body_stampsForks (hc : d.Calls os front)
    (hcalls : ∀ now i p log p' log', d.spawn os now i p log = .ok (p', log') →
      log'.forkCalls = log.forkCalls ++ [(now, os.fork log)]) : (d.body os).StampsForks os where
  head s := by
    show (d.finishTest s).state.log.forkCalls = s.log.forkCalls
    rcases finishTest_cases (d := d) s with ⟨htest, -⟩ | ⟨r, -, -, htest⟩
    · rw [htest]
      rfl
    · rw [htest]
      split <;> simp
  spawn := hcalls
  tail s := by
    show ((d.contextSwitch os s).bind fun s => .next s.unit).state.log.forkCalls = _
    have hunit : ∀ s : State, s.unit.log.forkCalls = s.log.forkCalls := fun s => by
      rw [State.unit]
      cases s.running <;> simp
    have hwakeup : ∀ i, (d.wakeup os s i).forkCalls = [] := fun i => by
      rw [← List.map_eq_nil_iff (f := Prod.snd), Log.map_forkCalls, (hc.quiet s i).1]
    rw [Discipline.contextSwitch]
    cases d.next s with
    | none => rfl
    | some next =>
        cases next with
        | none => exact hunit s
        | some i =>
            by_cases hr : s.running = some i
            · simp [hr, hunit, Discipline.body]
            · simp [hr, hunit, hwakeup, Discipline.body]

end Loop

namespace Psjf

variable {os : Os}

theorem update_pid (i j : ℕ) (s : State) :
    (entry (update i s).proc j).pid = (entry s.proc j).pid := by
  have hexec := pid_modify s.proc (f := fun p => { p with exec := p.exec - 1 }) (fun _ => rfl) i j
  rw [update]
  split
  · exact (pid_modify _ (f := fun p => { p with waiting := 0 }) (fun _ => rfl) i j).trans hexec
  · exact hexec

theorem body_writesPids (hos : os.Healthy) : (body os).WritesPids os where
  spawn now i p log p' log' h := by
    replace h : spawn os now i p log = .ok (p', log') := h
    rw [spawn_eq hos, Except.ok.injEq, Prod.mk.injEq] at h
    rw [← h.1]
  tail s i := by
    show (entry (select s).proc i).pid = (entry s.proc i).pid
    rw [select]
    split
    · obtain ⟨hproc, -⟩ := dispatch_spec (findMinIndex s.proc) s
      rw [update_pid, hproc]
    · rfl

theorem dispatch_forkCalls (i : ℕ) (s : State) :
    (dispatch i s).log.forkCalls = s.log.forkCalls := by
  rw [dispatch]
  split
  · split <;> simp [schedSetscheduler]
  · simp

theorem body_stampsForks (hos : os.Healthy) : (body os).StampsForks os where
  head s := by
    simp only [body]
    split <;> rfl
  spawn now i p log p' log' h := by
    replace h : spawn os now i p log = .ok (p', log') := h
    rw [spawn_eq hos, Except.ok.injEq, Prod.mk.injEq] at h
    rw [← h.2]
    simp
  tail s := by
    show (select s).log.forkCalls = s.log.forkCalls
    rw [select]
    split
    · rw [update]
      split <;> simp [dispatch_forkCalls]
    · rfl

end Psjf

namespace Policy

variable {P : Policy} {os : Os} {q : Qsort} {W : List Process}

theorem writesPids (hos : os.Healthy) : (P.body os).WritesPids os := by
  cases P with
  | fifo => exact Loop.body_writesPids (Fifo.calls hos)
  | sjf => exact Loop.body_writesPids (Sjf.calls hos)
  | rr => exact Loop.body_writesPids (Rr.calls hos)
  | psjf => exact Psjf.body_writesPids hos

/-- The fork of the four files. -/
theorem stampsForks (hos : os.Healthy) : (P.body os).StampsForks os := by
  have hcalls : ∀ {spawn : ℕ → ℕ → Process → Log → Except Log (Process × Log)},
      (∀ now i p log, spawn now i p log = .ok ({ p with pid := os.fork log },
        log ++ [(now, .call (.fork (os.fork log))), (now, .call (.setaffinity (os.fork log) 1)),
          (now, .call (.setscheduler (os.fork log) .idle 0)), (now, .mark (.fork i))])) →
      ∀ now i p log p' log', spawn now i p log = .ok (p', log') →
        log'.forkCalls = log.forkCalls ++ [(now, os.fork log)] := by
    intro spawn heq now i p log p' log' h
    rw [heq, Except.ok.injEq, Prod.mk.injEq] at h
    rw [← h.2]
    simp
  cases P with
  | fifo => exact Loop.body_stampsForks (Fifo.calls hos) (hcalls (Fifo.spawn_eq hos))
  | sjf => exact Loop.body_stampsForks (Sjf.calls hos) (hcalls (Sjf.spawn_eq hos))
  | rr => exact Loop.body_stampsForks (Rr.calls hos) (hcalls (Rr.spawn_eq hos))
  | psjf => exact Psjf.body_stampsForks hos

/-- Everything has been forked when the loop is left. -/
theorem forkedOf_perm (hos : os.Healthy) (hW : WellFormed W) (hz : P.Fresh W) {k : ℕ}
    {s : Snapshot} (hs : P.run os q W k = .done s) :
    (forkedOf s.log.marks).Perm (List.range W.length) := by
  have hT := P.table_wellFormed (q := q) hW
  have hd := P.describes (q := q) hos hW hz
  rw [(hd.closes hs).marks]
  refine (forkedOf_trace _ _ _ _).trans (List.Perm.of_eq ?_)
  rw [P.length_table, List.filter_eq_self]
  intro i hi
  have hi' : i < (P.table q W).length := by
    rw [P.length_table]
    exact List.mem_range.mp hi
  -- a process that has had its units was released before the end
  rw [decide_eq_true_eq]
  by_contra hle
  have hzero := hd.legal.served_eq_zero (Nat.le_of_not_lt hle)
  have hfin := hd.finished i (mem_jobsOf.mpr hi')
  have := hT.jobs_length_pos hi'
  omega

/-- The parent alone comes to the end of its run. -/
theorem exists_path_end (hos : os.Healthy) (hW : WellFormed W) (hz : P.Fresh W) :
    ∃ acts s, Path ((P.body os).system os) (P.start os q W).launch acts (.ended (.done s)) ∧
      acts.length = makespan W * (W.length + 2) + 1 ∧
      P.run os q W (makespan W + 1) = .done (P.snapshot s) := by
  have hd := P.describes (q := q) hos hW hz
  obtain ⟨x, hx, -⟩ := hd.next _ (Nat.le_refl (makespan W))
  obtain ⟨y, hy, -⟩ := hd.done _ (Nat.lt_succ_self (makespan W))
  rw [P.run_eq] at hx hy
  obtain ⟨s, hs, -⟩ := Outcome.map_eq_next.mp hx
  obtain ⟨s', hs', rfl⟩ := Outcome.map_eq_done.mp hy
  have hstep := (Outcome.run_succ_of_next hs).symm.trans hs'
  obtain ⟨acts, hpath, hlen⟩ := (P.runs (q := q) hos hW hz).path_done hos hs hstep
  rw [P.length_table] at hlen
  exact ⟨acts, s', hpath, hlen, by rw [P.run_eq, hs', Outcome.map_done]⟩

/-- The table of the body is the table of the snapshot. -/
theorem proc_snapshot (P : Policy) (os : Os) (s : P.State) :
    (P.body os).proc s = (P.snapshot s).proc := by
  cases P <;> rfl

/-- A log of the body is the log of the snapshot. -/
theorem log_snapshot (P : Policy) (os : Os) (s : P.State) :
    (P.body os).log s = (P.snapshot s).log := by
  cases P <;> rfl

end Policy
end ProcSched
