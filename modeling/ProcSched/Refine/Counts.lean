/-
  ProcSched.Refine.Counts

  Conservation laws of the loops, for any table and any kernel.  An iteration of
  the loop that FIFO.c, RR.c and SJF.c share keeps the number of processes that
  are counted as finished, about to be counted, or have units left
  (`tally_step`); an iteration of PSJF keeps the number of those that are counted
  or have a positive counter (`Psjf.tally_step`).  So a process that never has
  units left, or never gets any, keeps the loop from ending.
-/

import ProcSched.Refine.Phases

namespace ProcSched

/-- The entries whose counter is not 0. -/
def unfinishedEntries (proc : List Process) : Finset ℕ :=
  (Finset.range proc.length).filter fun i => (entry proc i).exec ≠ 0

/-- The entries whose counter is positive. -/
def positiveEntries (proc : List Process) : Finset ℕ :=
  (Finset.range proc.length).filter fun i => 0 < (entry proc i).exec

theorem card_unfinishedEntries_le (proc : List Process) :
    (unfinishedEntries proc).card ≤ proc.length :=
  (Finset.card_filter_le _ _).trans (Finset.card_range _).le

/-- Past the end of the table there is nothing to do. -/
theorem lt_length_of_exec {proc : List Process} {i : ℕ} (h : (entry proc i).exec ≠ 0) :
    i < proc.length := by
  by_contra hle
  rw [entry, List.getD_eq_default _ _ (Nat.le_of_not_lt hle)] at h
  exact h rfl

theorem unfinishedEntries_congr {proc proc' : List Process} (hlen : proc'.length = proc.length)
    (hexec : ∀ i < proc.length, (entry proc' i).exec = (entry proc i).exec) :
    unfinishedEntries proc' = unfinishedEntries proc := by
  rw [unfinishedEntries, unfinishedEntries, hlen]
  exact Finset.filter_congr fun i hi => by rw [hexec i (Finset.mem_range.mp hi)]

/-! ## The fork scan -/

/-- A scan whose forks only set the pid changes pids of ready entries only. -/
theorem forkScan_pids {now : ℕ} {spawn : ℕ → Process → Log → Except Log (Process × Log)}
    (hspawn : ∀ i p log p' log', spawn i p log = .ok (p', log') →
      ∃ pid, p' = { p with pid := pid })
    {i : ℕ} {ps ps' : List Process} {log log' : Log}
    (h : forkScan spawn now i ps log = .ok (ps', log')) : ps'.length = ps.length ∧
      ∀ k < ps.length, ∃ pid, entry ps' k = { entry ps k with pid := pid } ∧
        ((entry ps k).ready ≠ now → pid = (entry ps k).pid) := by
  obtain ⟨hlen, hentry⟩ := forkScan_entries hspawn h
  refine ⟨hlen, fun k hk => ?_⟩
  have hk' := hentry k hk
  split at hk'
  · next hready =>
    obtain ⟨pid, heq⟩ := hk'
    exact ⟨pid, heq, fun hne => absurd hready hne⟩
  · exact ⟨(entry ps k).pid, hk', fun _ => rfl⟩

namespace Loop

variable {d : Discipline} {os : Os} {s s' s'' : State} {k : ℕ}

/-- The fork of a discipline: it sets the pid, to the value of `fork` if that is
    the pid of a child or -1, and it does fork. -/
structure Discipline.Forks (d : Discipline) (os : Os) : Prop where
  sets : ∀ now i p log p' log', d.spawn os now i p log = .ok (p', log') →
    ∃ pid, p' = { p with pid := pid }
  pid : ∀ now i p log p' log', d.spawn os now i p log = .ok (p', log') →
    -1 ≤ os.fork log → p'.pid = os.fork log
  forked : ∀ now i p log p' log', d.spawn os now i p log = .ok (p', log') →
    log'.forked = log.forked ++ [os.fork log]
  wakeup : ∀ s i, (d.wakeup os s i).forked = []

/-- A process that is put in the place of another one is forked and unfinished. -/
def Discipline.Picks (d : Discipline) : Prop :=
  ∀ s i, d.next s = some (some i) → s.running ≠ some i → Runnable (entry s.proc i)

/-- 1 if the running process has had its last unit and is not counted yet. -/
def State.owed (s : State) : ℕ :=
  match s.running with
  | none => 0
  | some r => if (entry s.proc r).exec = 0 then 1 else 0

/-- Counted, about to be counted, or with units left. -/
def State.tally (s : State) : ℕ := s.finish + s.owed + (unfinishedEntries s.proc).card

theorem owed_eq_zero : s.owed = 0 ↔ ∀ r, s.running = some r → (entry s.proc r).exec ≠ 0 := by
  rw [State.owed]
  cases s.running with
  | none => simp
  | some r => simp

/-! ## One iteration -/

theorem tally_finishTest (h : d.finishTest s = .next s') : s'.tally = s.tally ∧ s'.owed = 0 := by
  rcases finishTest_next_cases h with ⟨rfl, hkeep⟩ | ⟨r, hr, hexec, rfl⟩
  · exact ⟨rfl, owed_eq_zero.mpr hkeep⟩
  · have howed : s.owed = 1 := by simp [State.owed, hr, hexec]
    refine ⟨?_, rfl⟩
    rw [State.tally, State.tally, howed]
    rfl

section

variable (hf : d.Forks os)
include hf

/-- The fork scan leaves everything but pids as it is. -/
theorem forkReady_pids (h : d.forkReady os s = .next s') : s'.proc.length = s.proc.length ∧
    (∀ i < s.proc.length, ∃ pid, entry s'.proc i = { entry s.proc i with pid := pid } ∧
      ((entry s.proc i).ready ≠ s.now → pid = (entry s.proc i).pid)) ∧
    s'.running = s.running ∧ s'.finish = s.finish ∧ s'.now = s.now := by
  obtain ⟨proc, log, hscan, rfl⟩ := forkReady_eq_next.mp h
  obtain ⟨hlen, hentry⟩ := forkScan_pids (hf.sets s.now) hscan
  exact ⟨hlen, hentry, rfl, rfl, rfl⟩

theorem exec_forkReady (h : d.forkReady os s = .next s') (i : ℕ) :
    (entry s'.proc i).exec = (entry s.proc i).exec := by
  obtain ⟨hlen, hentry, -⟩ := forkReady_pids hf h
  by_cases hi : i < s.proc.length
  · obtain ⟨pid, heq, -⟩ := hentry i hi
    rw [heq]
  · rw [entry, entry, List.getD_eq_default _ _ (Nat.le_of_not_lt hi),
      List.getD_eq_default _ _ (by rw [hlen]; exact Nat.le_of_not_lt hi)]

theorem tally_forkReady (h : d.forkReady os s = .next s') :
    s'.tally = s.tally ∧ s'.owed = s.owed := by
  obtain ⟨hlen, -, hrun, hfin, -⟩ := forkReady_pids hf h
  have hexec := exec_forkReady hf h
  have howed : s'.owed = s.owed := by
    rw [State.owed, State.owed, hrun]
    cases s.running with
    | none => rfl
    | some r => simp only [hexec]
  refine ⟨?_, howed⟩
  rw [State.tally, State.tally, howed, hfin, unfinishedEntries_congr hlen fun i _ => hexec i]

end

theorem tally_contextSwitch (hp : d.Picks) (h : d.contextSwitch os s = .next s')
    (howed : s.owed = 0) : s'.tally = s.tally ∧ s'.owed = 0 := by
  rcases contextSwitch_cases h with ⟨-, rfl⟩ | ⟨i, -, -, rfl⟩ | ⟨i, hnext, hne, rfl⟩
  · exact ⟨rfl, howed⟩
  · exact ⟨rfl, howed⟩
  · have howed' : State.owed { s with
        running := some i
        last := d.last s
        log := s.log ++ [(s.now, .mark (.select i))] ++ d.wakeup os s i ++
          [(s.now, .mark (.switch i))] } = 0 := by
      rw [owed_eq_zero]
      rintro r hr
      rw [← Option.some.inj hr]
      exact (hp s i hnext hne).2
    refine ⟨?_, howed'⟩
    rw [State.tally, State.tally, howed', howed]

/-- With its last unit a process passes from the unfinished to the owed ones. -/
theorem tally_unit (howed : s.owed = 0) : s.unit.tally = s.tally := by
  cases hr : s.running with
  | none => simp [State.tally, State.owed, State.unit, hr]
  | some r =>
      have hexec := owed_eq_zero.mp howed r hr
      have hlt := lt_length_of_exec hexec
      have hmem : r ∈ unfinishedEntries s.proc :=
        Finset.mem_filter.mpr ⟨Finset.mem_range.mpr hlt, hexec⟩
      -- the unit decrements `exec` of `r` and nothing else that is counted
      have hproc : s.unit.proc = s.proc.modify r fun p => { p with exec := p.exec - 1 } := by
        rw [State.unit, hr]
      have hfinish : s.unit.finish = s.finish := by rw [State.unit, hr]
      have hentry : ∀ j < s.proc.length, (entry s.unit.proc j).exec =
          if j = r then (entry s.proc r).exec - 1 else (entry s.proc j).exec := by
        intro j hj
        rw [hproc, entry_modify hj]
        by_cases hjr : j = r
        · subst hjr
          simp
        · simp [hjr]
      have hlen : s.unit.proc.length = s.proc.length := by rw [hproc, List.length_modify]
      have howed' : s.unit.owed = if (entry s.proc r).exec - 1 = 0 then 1 else 0 := by
        have hself := hentry r hlt
        rw [if_pos rfl] at hself
        rw [State.owed, show s.unit.running = some r by rw [State.unit, hr]]
        simp only [hself]
      -- with its last unit `r` stops being unfinished and is owed instead
      by_cases hlast : (entry s.proc r).exec - 1 = 0
      · have hset : unfinishedEntries s.unit.proc = (unfinishedEntries s.proc).erase r := by
          ext j
          rw [Finset.mem_erase, unfinishedEntries, unfinishedEntries, Finset.mem_filter,
            Finset.mem_filter, hlen, Finset.mem_range]
          by_cases hj : j < s.proc.length
          · rw [hentry j hj]
            by_cases hjr : j = r
            · simp [hjr, hlast]
            · simp [hjr]
          · simp [hj]
        have hcard := Finset.card_erase_of_mem hmem
        have hpos := Finset.card_pos.mpr ⟨r, hmem⟩
        rw [State.tally, State.tally, hset, hfinish, howed', if_pos hlast, howed]
        omega
      · have hset : unfinishedEntries s.unit.proc = unfinishedEntries s.proc := by
          rw [unfinishedEntries, unfinishedEntries, hlen]
          refine Finset.filter_congr fun j hj => ?_
          rw [hentry j (Finset.mem_range.mp hj)]
          by_cases hjr : j = r
          · simp [hjr, hlast, hexec]
          · simp [hjr]
        rw [State.tally, State.tally, hset, hfinish, howed', if_neg hlast, howed]

theorem tally_step (hf : d.Forks os) (hp : d.Picks) (h : d.step os s = .next s'') :
    s''.tally = s.tally := by
  obtain ⟨s₁, s₂, s₃, htest, hfork, hswitch, rfl⟩ := step_cases h
  obtain ⟨h₁, ho₁⟩ := tally_finishTest htest
  obtain ⟨h₂, ho₂⟩ := tally_forkReady hf hfork
  obtain ⟨h₃, ho₃⟩ := tally_contextSwitch hp hswitch (ho₂.trans ho₁)
  rw [tally_unit ho₃, h₃, h₂, h₁]

/-! ## Whole runs -/

variable {W : List Process} {log : Log} {o : Outcome State}

theorem unfinishedEntries_resetPids (W : List Process) :
    unfinishedEntries (resetPids W) = unfinishedEntries W :=
  unfinishedEntries_congr (List.length_map _) fun i hi => by rw [entry_resetPids hi]

theorem length_step (hf : d.Forks os) (h : d.step os s = .next s'') :
    s''.proc.length = s.proc.length := by
  obtain ⟨s₁, s₂, s₃, htest, hfork, hswitch, rfl⟩ := step_cases h
  have h₁ : s₁.proc = s.proc := by
    rcases finishTest_next_cases htest with ⟨rfl, -⟩ | ⟨r, -, -, rfl⟩
    · rfl
    · exact reap_proc d s r
  -- the context switch and the unit leave the table as long as it is
  have h₃ : s₃.proc = s₂.proc := by
    rcases contextSwitch_cases hswitch with ⟨-, rfl⟩ | ⟨i, -, -, rfl⟩ | ⟨i, -, -, rfl⟩ <;> rfl
  have h₄ : s₃.unit.proc.length = s₃.proc.length := by
    rw [State.unit]
    cases s₃.running with
    | none => rfl
    | some r => exact List.length_modify _ _ _
  rw [h₄, h₃, (forkReady_pids hf hfork).1, h₁]

/-- The law over a run. -/
theorem tally_of_next (hf : d.Forks os) (hp : d.Picks) (ho : o = .next (State.initial W log)) :
    ∀ k s, Outcome.run (d.step os) o k = .next s →
      s.tally = (unfinishedEntries W).card ∧ s.proc.length = W.length := by
  refine Outcome.run_invariant (fun s hs => ?_) fun k s s' _ _ hstep ⟨htally, hlen⟩ => ?_
  · obtain rfl := Outcome.next.inj (ho.symm.trans hs)
    refine ⟨?_, List.length_map _⟩
    rw [State.tally, ← unfinishedEntries_resetPids W]
    exact Nat.zero_add _
  · exact ⟨(tally_step hf hp hstep).trans htally, (length_step hf hstep).trans hlen⟩

/-- The loop is left only if the table has an entry and all entries had units, and
    then no entry has any left. -/
theorem tally_of_done (hf : d.Forks os) (hp : d.Picks) (ho : o = .next (State.initial W log))
    (h : Outcome.run (d.step os) o k = .done s') : ∃ c s, Outcome.run (d.step os) o c = .next s ∧
      d.step os s = .done s' ∧ W ≠ [] ∧ (∀ i < W.length, (entry W i).exec ≠ 0) ∧
      ∀ i < W.length, (entry s.proc i).exec = 0 := by
  obtain ⟨c, s, hrun, h⟩ := Outcome.exists_of_run_done (fun s => by simp [ho]) h
  obtain ⟨htally, hlen⟩ := tally_of_next hf hp ho c s hrun
  rcases finishTest_cases (d := d) s with ⟨htest, -⟩ | ⟨r, hr, hexec, htest⟩
  · rw [step_eq_done, htest] at h
    cases h
  by_cases hall : s.finish + 1 = s.proc.length
  · have howed : s.owed = 1 := by simp [State.owed, hr, hexec]
    have hle := card_unfinishedEntries_le W
    rw [State.tally, howed, hall, hlen] at htally
    -- all entries had units, and none has any left
    have hnone : unfinishedEntries s.proc = ∅ := Finset.card_eq_zero.mp (by omega)
    have hfull : unfinishedEntries W = Finset.range W.length :=
      Finset.eq_of_subset_of_card_le (Finset.filter_subset _ _) (by
        rw [Finset.card_range]
        omega)
    refine ⟨c, s, hrun, h, fun hW => ?_, fun i hi => ?_, fun i hi => ?_⟩
    · rw [hW] at hlen
      rw [hlen] at hall
      exact absurd hall (Nat.succ_ne_zero _)
    · rw [← Finset.mem_range, ← hfull] at hi
      exact (Finset.mem_filter.mp hi).2
    · by_contra hne
      have hmem : i ∈ unfinishedEntries s.proc :=
        Finset.mem_filter.mpr ⟨Finset.mem_range.mpr (lt_length_of_exec hne), hne⟩
      rw [hnone] at hmem
      exact absurd hmem (Finset.notMem_empty i)
  · rw [step_eq_done, htest, if_neg hall] at h
    cases h

end Loop

/-! ## The three files -/

section Disciplines

variable {os : Os}

theorem Fifo.procAssignCpu_forked {now core : ℕ} {pid : Int} {log log' : Log}
    (h : procAssignCpu os now pid core log = .ok log') : log'.forked = log.forked := by
  rw [procAssignCpu] at h
  split at h
  · cases h
  · rw [← Except.ok.inj h]
    simp

theorem Psjf.procAssignCpu_forked {now core : ℕ} {pid : Int} {log log' : Log}
    (h : procAssignCpu os now pid core log = .ok log') : log'.forked = log.forked := by
  rw [procAssignCpu] at h
  split at h
  · rw [← Except.ok.inj h]
  · exact Fifo.procAssignCpu_forked h

/-- `proc_exec` forks once; a failed fork gives -1. -/
theorem procExec_forked {assign : Int → ℕ → Log → Except Log Log} {now : ℕ} {log log' : Log}
    {pid : Int}
    (hassign : ∀ pid core log log', assign pid core log = .ok log' → log'.forked = log.forked)
    (h : procExec assign os now log = .ok (pid, log')) :
    log'.forked = log.forked ++ [os.fork log] ∧ (-1 ≤ os.fork log → pid = os.fork log) := by
  rw [procExec] at h
  split at h
  · simp only [Except.ok.injEq, Prod.mk.injEq] at h
    rw [← h.1, ← h.2]
    exact ⟨by simp, fun _ => by omega⟩
  · cases hs : assign (os.fork log) 1 (log ++ [(now, .call (.fork (os.fork log)))]) with
    | error log₁ =>
        rw [hs] at h
        cases h
    | ok log₁ =>
        rw [hs] at h
        simp only [Except.map, Except.ok.injEq, Prod.mk.injEq] at h
        rw [← h.1, ← h.2, hassign _ _ _ _ hs]
        exact ⟨by simp, fun _ => rfl⟩

/-- The fork scan's body of FIFO and RR, up to the `proc_assign_cpu` of the file. -/
theorem Loop.forks_of_procExec {d : Loop.Discipline}
    {assign : ℕ → Int → ℕ → Log → Except Log Log}
    (hassign : ∀ now pid core log log', assign now pid core log = .ok log' →
      log'.forked = log.forked)
    (hspawn : ∀ now i p log, d.spawn os now i p log =
      match procExec (assign now) os now log with
      | .error log => .error log
      | .ok (pid, log) =>
        .ok ({ p with pid := pid }, procBlock now pid log ++ [(now, .mark (.fork i))]))
    (hwakeup : ∀ s i, (d.wakeup os s i).forked = []) : d.Forks os := by
  have hspec : ∀ now i p log p' log', d.spawn os now i p log = .ok (p', log') →
      (∃ pid, p' = { p with pid := pid }) ∧ log'.forked = log.forked ++ [os.fork log] ∧
        (-1 ≤ os.fork log → p'.pid = os.fork log) := by
    intro now i p log p' log' h
    rw [hspawn] at h
    split at h
    · cases h
    · next pid log₁ hexec =>
      obtain ⟨hforked, hpid⟩ := procExec_forked (hassign now) hexec
      simp only [Except.ok.injEq, Prod.mk.injEq] at h
      obtain ⟨rfl, rfl⟩ := h
      exact ⟨⟨pid, rfl⟩, by simp [procBlock, schedSetscheduler, hforked], hpid⟩
  exact ⟨fun now i p log p' log' h => (hspec now i p log p' log' h).1,
    fun now i p log p' log' h => (hspec now i p log p' log' h).2.2,
    fun now i p log p' log' h => (hspec now i p log p' log' h).2.1, hwakeup⟩

theorem Fifo.forks (os : Os) : Fifo.discipline.Forks os :=
  Loop.forks_of_procExec (fun _ _ _ _ _ => procAssignCpu_forked) (fun _ _ _ _ => rfl)
    fun s i => by simp [Fifo.discipline, procBlock, procWakeup, schedSetscheduler]

theorem Rr.forks (os : Os) : Rr.discipline.Forks os :=
  Loop.forks_of_procExec (fun _ _ _ _ _ => Psjf.procAssignCpu_forked) (fun _ _ _ _ => rfl)
    fun s i => by simp [Rr.discipline, procBlock, procWakeup, schedSetscheduler]

theorem Sjf.forks (os : Os) : Sjf.discipline.Forks os := by
  have hspec : ∀ now i p log p' log', Sjf.discipline.spawn os now i p log = .ok (p', log') →
      p' = { p with pid := os.fork log } ∧ log'.forked = log.forked ++ [os.fork log] := by
    intro now i p log p' log' h
    simp only [Sjf.discipline, Sjf.spawn] at h
    split at h
    · cases h
    · next log₁ hassign =>
      simp only [Except.ok.injEq, Prod.mk.injEq] at h
      obtain ⟨rfl, rfl⟩ := h
      exact ⟨rfl, by simp [schedSetscheduler, Psjf.procAssignCpu_forked hassign]⟩
  refine ⟨fun now i p log p' log' h => ⟨_, (hspec now i p log p' log' h).1⟩,
    fun now i p log p' log' h _ => by rw [(hspec now i p log p' log' h).1],
    fun now i p log p' log' h => (hspec now i p log p' log' h).2, fun s i => ?_⟩
  simp [Sjf.discipline, schedSetscheduler]

theorem Fifo.picks : Fifo.discipline.Picks := by
  intro s i hnext hne
  simp only [Fifo.discipline, Fifo.nextProc, Option.some.injEq] at hnext
  cases hr : s.running with
  | none =>
      rw [hr] at hnext
      exact ((Fifo.nextProcScan_spec s.proc).2 i hnext).2.1
  | some r =>
      rw [hr] at hnext
      exact absurd (hr.trans hnext) hne

theorem Sjf.picks : Sjf.discipline.Picks := by
  intro s i hnext hne
  simp only [Sjf.discipline, Sjf.next, Option.some.injEq] at hnext
  cases hr : s.running with
  | none =>
      rw [hr] at hnext
      exact ((Sjf.nextScan_spec s.proc).2 i hnext).2.1
  | some r =>
      rw [hr] at hnext
      exact absurd (hr.trans hnext) hne

theorem Rr.runnable_of_rotate {proc : List Process} {fuel ret i : ℕ}
    (h : rotate proc fuel ret = some i) : Runnable (entry proc i) := by
  obtain ⟨m, -, hs⟩ := rotate_eq_some.mp h
  exact not_skip_iff.mp hs.ends

theorem Rr.picks : Rr.discipline.Picks := by
  intro s i hnext hne
  simp only [Rr.discipline, rrNext] at hnext
  split at hnext
  · have hfound := List.find?_some (Option.some.inj hnext)
    simp only [decide_eq_true_eq] at hfound
    exact ⟨hfound.1, by omega⟩
  · next r hr =>
    split at hnext
    · obtain ⟨j, hj, hji⟩ := Option.map_eq_some_iff.mp hnext
      rw [← Option.some.inj hji]
      exact runnable_of_rotate hj
    · exact absurd (hr.trans (Option.some.inj hnext)) hne

end Disciplines

/-! ## PSJF -/

namespace Psjf

variable {os : Os} {s s' : State} {i k : ℕ}

/-- Counted, or with a positive counter. -/
def State.tally (s : State) : ℕ := s.finished + (positiveEntries s.proc).card

theorem positiveEntries_congr {proc proc' : List Process} (hlen : proc'.length = proc.length)
    (hexec : ∀ i < proc.length, 0 < (entry proc' i).exec ↔ 0 < (entry proc i).exec) :
    positiveEntries proc' = positiveEntries proc := by
  rw [positiveEntries, positiveEntries, hlen]
  exact Finset.filter_congr fun i hi => hexec i (Finset.mem_range.mp hi)

theorem spawn_exec {now i : ℕ} {p p' : Process} {log log' : Log}
    (h : spawn os now i p log = .ok (p', log')) : p'.exec = p.exec := by
  rw [spawn] at h
  split at h
  · cases h
  · simp only [Except.ok.injEq, Prod.mk.injEq] at h
    rw [← h.1]

/-- The scan leaves the counters alone. -/
theorem forkScan_exec {now i : ℕ} {ps ps' : List Process} {log log' : Log}
    (h : forkScan (spawn os now) now i ps log = .ok (ps', log')) :
    ps'.length = ps.length ∧ ∀ k < ps.length, (entry ps' k).exec = (entry ps k).exec := by
  obtain ⟨hlen, hentry⟩ := forkScan_entries (R := fun p p' => p'.exec = p.exec)
    (fun _ _ _ _ _ => spawn_exec) h
  refine ⟨hlen, fun k hk => ?_⟩
  have hk' := hentry k hk
  split at hk'
  · exact hk'
  · rw [hk']

theorem tally_forkReady (h : forkReady os s = .next s') :
    s'.tally = s.tally ∧ s'.proc.length = s.proc.length := by
  rw [forkReady] at h
  split at h
  · cases h
  · next proc log hscan =>
    obtain ⟨hlen, hexec⟩ := forkScan_exec hscan
    rw [← Outcome.next.inj h]
    refine ⟨?_, hlen⟩
    rw [State.tally, State.tally, positiveEntries_congr hlen fun i hi => by rw [hexec i hi]]

/-- A counter that reaches 0 passes from the positive to the counted ones; a
    counter that starts at 0 goes below it and does neither. -/
theorem tally_update (hi : i < s.proc.length) :
    (update i s).tally = s.tally ∧ (update i s).proc.length = s.proc.length := by
  obtain ⟨hentry, hlen, -, -, hfinished, -⟩ := update_spec hi
  refine ⟨?_, hlen⟩
  by_cases hlast : (entry s.proc i).exec - 1 = 0
  · have hmem : i ∈ positiveEntries s.proc :=
      Finset.mem_filter.mpr ⟨Finset.mem_range.mpr hi, by omega⟩
    have hset : positiveEntries (update i s).proc = (positiveEntries s.proc).erase i := by
      ext j
      rw [Finset.mem_erase, positiveEntries, positiveEntries, Finset.mem_filter,
        Finset.mem_filter, hlen, Finset.mem_range]
      by_cases hj : j < s.proc.length
      · rw [hentry j hj]
        by_cases hji : j = i
        · simp [hji, hlast]
        · simp [hji]
      · simp [hj]
    have hcard := Finset.card_erase_of_mem hmem
    have hpos := Finset.card_pos.mpr ⟨i, hmem⟩
    rw [State.tally, State.tally, hset, hfinished, if_pos hlast]
    omega
  · have hset : positiveEntries (update i s).proc = positiveEntries s.proc := by
      refine positiveEntries_congr hlen fun j hj => ?_
      rw [hentry j hj]
      by_cases hji : j = i
      · subst hji
        simp only [if_true]
        omega
      · simp [hji]
    rw [State.tally, State.tally, hset, hfinished, if_neg hlast, Nat.add_zero]

/-- The index that `find_min_index` returns is 0 or one it has come to. -/
theorem findMinIndex_lt {proc : List Process} (h : 0 < proc.length) :
    findMinIndex proc < proc.length := by
  rw [findMinIndex]
  refine List.foldlRecOn (motive := fun acc : ℕ × Int => acc.1 < proc.length) _ _ h ?_
  intro acc hacc j hj
  split
  · exact List.mem_range.mp hj
  · exact hacc

/-- The selection updates the entry that is found, or changes nothing. -/
theorem select_cases (s : State) :
    (someProcessIsReady s.proc = true ∧ ∃ i, findMinIndex s.proc = i ∧ i < s.proc.length ∧
        select s = update i (dispatch i s)) ∨
      (someProcessIsReady s.proc = false ∧ select s = s) := by
  cases hready : someProcessIsReady s.proc with
  | true =>
      obtain ⟨j, hj, -⟩ := someProcessIsReady_iff.mp hready
      exact Or.inl ⟨rfl, _, rfl, findMinIndex_lt (by omega), by rw [select, if_pos hready]⟩
  | false => exact Or.inr ⟨rfl, by rw [select, hready]; rfl⟩

theorem tally_select (s : State) :
    (select s).tick.tally = s.tally ∧ (select s).tick.proc.length = s.proc.length := by
  rcases select_cases s with ⟨-, i, -, hi, heq⟩ | ⟨-, heq⟩
  · obtain ⟨hproc, -, hfinished, -⟩ := dispatch_spec i s
    rw [← hproc] at hi
    obtain ⟨htally, hlen⟩ := tally_update hi
    rw [heq]
    refine ⟨htally.trans ?_, hlen.trans (by rw [hproc])⟩
    rw [State.tally, State.tally, hproc, hfinished]
  · rw [heq]
    exact ⟨rfl, rfl⟩

theorem tally_step (h : step os s = .next s') :
    s'.tally = s.tally ∧ s'.proc.length = s.proc.length := by
  rw [step] at h
  split at h
  · cases h
  · obtain ⟨s₁, hfork, hnext⟩ := Outcome.bind_eq_next.mp h
    obtain ⟨h₁, hlen₁⟩ := tally_forkReady hfork
    obtain ⟨h₂, hlen₂⟩ := tally_select s₁
    rw [← Outcome.next.inj hnext]
    exact ⟨h₂.trans h₁, hlen₂.trans hlen₁⟩

theorem start_eq_next {W : List Process} (h : start os W = .next s) :
    s.proc = W ∧ s.time = 0 ∧ s.finished = 0 := by
  rw [start] at h
  split at h
  · cases h
  · rw [← Outcome.next.inj h]
    exact ⟨rfl, rfl, rfl⟩

/-- The law over a run. -/
theorem tally_of_next {W : List Process} : ∀ k s, psjf os W k = .next s →
    s.tally = (positiveEntries W).card ∧ s.proc.length = W.length := by
  refine Outcome.run_invariant (fun s hs => ?_) fun k s s' _ _ hstep ih => ?_
  · obtain ⟨hproc, -, hfinished⟩ := start_eq_next hs
    rw [State.tally, hproc, hfinished]
    exact ⟨Nat.zero_add _, rfl⟩
  · obtain ⟨h₁, h₂⟩ := tally_step hstep
    exact ⟨h₁.trans ih.1, h₂.trans ih.2⟩

/-- PSJF ends only if all counters were positive. -/
theorem tally_of_done {W : List Process} (h : psjf os W k = .done s') :
    ∀ i < W.length, 0 < (entry W i).exec := by
  have hstart : ∀ s, start os W ≠ .done s := fun s hs => by
    rw [start] at hs
    split at hs <;> cases hs
  obtain ⟨c, s, hrun, hstep⟩ := Outcome.exists_of_run_done hstart h
  obtain ⟨htally, hlen⟩ := tally_of_next c s hrun
  rw [step] at hstep
  split at hstep
  · next hfinished =>
    rw [State.tally, hfinished, hlen] at htally
    have hfull : positiveEntries W = Finset.range W.length :=
      Finset.eq_of_subset_of_card_le (Finset.filter_subset _ _) (by
        rw [Finset.card_range]
        omega)
    intro i hi
    rw [← Finset.mem_range, ← hfull] at hi
    exact (Finset.mem_filter.mp hi).2
  · rw [forkReady] at hstep
    split at hstep <;> cases hstep

end Psjf

end ProcSched
