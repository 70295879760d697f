/-
  ProcSched.Refine.Disciplines

  FIFO, SJF and RR obey their laws: the fork of each file gives a fresh pid when
  the system is healthy, and the choice of the next process is first come first
  served, shortest job next, or round robin with a quantum of `interval`.
-/

import ProcSched.Refine.Loop
import ProcSched.Refine.Table

namespace ProcSched

variable {os : Os} {W : List Process}

/-! ## Forking and starting on a healthy system -/

/-- The calls before the loop concern the scheduler itself. -/
structure Loop.Bare (log : Log) : Prop where
  marks : log.marks = []
  forked : log.forked = []
  reaped : log.reaped = []

section Healthy

variable (hos : os.Healthy)
include hos

theorem Fifo.procAssignCpu_ok {pid : Int} (hpid : 0 < pid) (now core : Nat) (log : Log) :
    Fifo.procAssignCpu os now pid core log =
      .ok (log ++ [(now, .call (.setaffinity pid core))]) := by
  have := hos.setaffinity_ok pid core hpid
  simp only [Fifo.procAssignCpu, if_neg (show ¬ os.setaffinity pid core < 0 by omega)]

theorem Psjf.procAssignCpu_ok {pid : Int} (hpid : 0 < pid) {core : Nat} (hcore : core ≤ 128)
    (now : Nat) (log : Log) :
    Psjf.procAssignCpu os now pid core log =
      .ok (log ++ [(now, .call (.setaffinity pid core))]) := by
  rw [Psjf.procAssignCpu, if_neg (by omega), Fifo.procAssignCpu_ok hos hpid]

/-- `proc_exec` returns the pid of a new child. -/
theorem procExec_ok {assign : Int → Nat → Log → Except Log Log} (now : Nat)
    (hassign : ∀ pid log, 0 < pid →
      assign pid 1 log = .ok (log ++ [(now, .call (.setaffinity pid 1))])) (log : Log) :
    procExec assign os now log = .ok (os.fork log,
      log ++ [(now, .call (.fork (os.fork log))), (now, .call (.setaffinity (os.fork log) 1))]) := by
  have hpos := hos.fork_pos log
  simp only [procExec, if_neg (show ¬ os.fork log < 0 by omega), hassign _ _ hpos, Except.map,
    List.append_assoc, List.cons_append, List.nil_append]

theorem Fifo.spawns (now : Nat) :
    Spawns now (fun pid p => { p with pid := pid }) (Fifo.spawn os now) := by
  intro i p log
  have hexec := procExec_ok hos now
    (fun pid log hpid => Fifo.procAssignCpu_ok hos hpid now 1 log) log
  refine ⟨os.fork log, _, by
    simp only [Fifo.spawn, hexec, procBlock, schedSetscheduler, List.append_assoc]; rfl,
    hos.fork_pos log, hos.fork_fresh log, by simp, by simp⟩

theorem Rr.spawns (now : Nat) :
    Spawns now (fun pid p => { p with pid := pid }) (Rr.spawn os now) := by
  intro i p log
  have hexec := procExec_ok hos now
    (fun pid log hpid => Psjf.procAssignCpu_ok hos hpid (by omega) now log) log
  refine ⟨os.fork log, _, by
    simp only [Rr.spawn, hexec, procBlock, schedSetscheduler, List.append_assoc]; rfl,
    hos.fork_pos log, hos.fork_fresh log, by simp, by simp⟩

theorem Sjf.spawns (now : Nat) :
    Spawns now (fun pid p => { p with pid := pid }) (Sjf.spawn os now) := by
  intro i p log
  refine ⟨os.fork log, _, by
    simp only [Sjf.spawn, Psjf.procAssignCpu_ok hos (hos.fork_pos log) (show 1 ≤ 128 by omega),
      schedSetscheduler, List.append_assoc]; rfl,
    hos.fork_pos log, hos.fork_fresh log, by simp, by simp⟩

theorem Fifo.start_ok (q : Qsort) (proc : List Process) :
    ∃ log : Log, Loop.Bare log ∧
      Fifo.start os q proc = .next (Loop.State.initial (q.sort Fifo.compare proc) log) := by
  refine ⟨_, ?_, by rw [Fifo.start, Fifo.procAssignCpu_ok hos hos.getpid_pos]⟩
  constructor <;> simp [procWakeup, schedSetscheduler]

theorem Sjf.start_ok (q : Qsort) (proc : List Process) :
    ∃ log : Log, Loop.Bare log ∧
      Sjf.start os q proc = .next (Loop.State.initial (q.sort Sjf.cmp proc) log) := by
  refine ⟨_, ?_, by
    rw [Sjf.start, Psjf.procAssignCpu_ok hos hos.getpid_pos (Nat.zero_le 128)]⟩
  constructor <;> simp [schedSetscheduler]

theorem Rr.start_ok (q : Qsort) (proc : List Process) :
    ∃ log : Log, Loop.Bare log ∧
      Rr.start os q proc = .next (Loop.State.initial (q.sort Rr.rrCompare proc) log) := by
  have hset := hos.setscheduler_ok os.getpid .other 0 hos.getpid_pos
  refine ⟨_, ?_, by
    simp only [Rr.start, Psjf.procAssignCpu_ok hos hos.getpid_pos (Nat.zero_le 128),
      if_neg (show ¬ os.setscheduler os.getpid .other 0 < 0 by omega)]; rfl⟩
  constructor <;> simp [schedSetscheduler]

end Healthy

/-! ## The choice of the next process -/

/-- A process keeps the processor until it is finished; then it goes to an
    eligible process that is `best` against every other one. -/
def keepLaw (W : List Process) (best : Schedule ℕ → ℕ → ℕ → ℕ → Prop) : ChoiceLaw := fun σ t o =>
  (∀ r, (jobsOf W).current σ t = some r → o = some r) ∧
    ∀ i j, (jobsOf W).current σ t = none → o = some i → (jobsOf W).Eligible σ t j → best σ t i j

/-- The law of `next_proc`. -/
def fcfsLaw (W : List Process) : ChoiceLaw := keepLaw W fun _ _ i j => i ≤ j

/-- The law of the selection in `SJF`. -/
def sjnLaw (W : List Process) : ChoiceLaw := keepLaw W fun σ t i j =>
  (jobsOf W).left σ t i < (jobsOf W).left σ t j ∨
    (jobsOf W).left σ t i = (jobsOf W).left σ t j ∧ i ≤ j

/-- The law of `RR_next`. -/
def roundRobinLaw (W : List Process) : ChoiceLaw := fun σ t o =>
  (∀ i j, (jobsOf W).current σ t = none → o = some i → (jobsOf W).Eligible σ t j → i ≤ j) ∧
    (∀ r, (jobsOf W).current σ t = some r → (t - σ.lastStart t) % Rr.interval ≠ 0 → o = some r) ∧
    ∀ r i, (jobsOf W).current σ t = some r → (t - σ.lastStart t) % Rr.interval = 0 →
      o = some i → (jobsOf W).NextAfter σ t r i

variable {σ : Schedule ℕ} {k : ℕ} {s : Loop.State}

/-- A choice that keeps the running process and otherwise scans the table for
    the best runnable entry. -/
theorem keep_admits {d : Loop.Discipline} {best : Schedule ℕ → ℕ → ℕ → ℕ → Prop}
    {o : Option ℕ} (hW : WellFormed W) (hC : Loop.AtChoice d W σ k s)
    (hkeep : ∀ r, s.running = some r → o = some r)
    (hscan : s.running = none → (o = none → ∀ i < s.proc.length, ¬ Runnable (entry s.proc i)) ∧
      ∀ r, o = some r → r < s.proc.length ∧ Runnable (entry s.proc r) ∧
        ∀ j < s.proc.length, Runnable (entry s.proc j) → best σ k r j) :
    Loop.Admits W (keepLaw W best) σ k o := by
  have hlen := hC.tracks.length_eq
  cases hr : s.running with
  | some r =>
      have hcur := hC.running.symm.trans hr
      have ho := hkeep r hr
      subst ho
      refine ⟨fun h => absurd h (Option.some_ne_none r), ?_, ?_, ?_⟩
      · intro i hi
        exact hC.carried i (hr.trans hi)
      · intro r' hr'
        exact hcur.symm.trans hr'
      · intro i j hnone
        rw [hcur] at hnone
        exact absurd hnone (Option.some_ne_none r)
  | none =>
      have hcur := hC.running.symm.trans hr
      obtain ⟨hnone, hsome⟩ := hscan hr
      refine ⟨fun h i hi => hC.forall_eligible hW (hnone h) hi, fun i hi => ?_, fun r hr' => ?_,
        fun i j _ hi hj => ?_⟩
      · obtain ⟨hlt, hrun, -⟩ := hsome i hi
        exact hC.eligible_of_runnable hW hlt hrun
      · rw [hcur] at hr'
        exact absurd hr' (Option.some_ne_none r).symm
      · obtain ⟨-, -, hbest⟩ := hsome i hi
        exact hC.forall_eligible hW hbest hj

theorem Fifo.next_spec (hW : WellFormed W) (hs : W.Pairwise fun a b => a.ready ≤ b.ready)
    (hC : Loop.AtChoice Fifo.discipline W σ k s) :
    ∃ o, Fifo.discipline.next s = some o ∧ Loop.Admits W (fcfsLaw W) σ k o := by
  have hlen := hC.tracks.length_eq
  refine ⟨_, rfl, keep_admits hW hC (fun r hr => by simp only [Fifo.nextProc, hr]) fun hr => ?_⟩
  obtain ⟨hnone, hsome⟩ := Fifo.nextProcScan_spec s.proc
  simp only [Fifo.nextProc, hr]
  refine ⟨hnone, fun i hi => ?_⟩
  obtain ⟨hlt, hrun, hleast⟩ := hsome i hi
  refine ⟨hlt, hrun, fun j hj hjr => ?_⟩
  -- the table is in ready order, so least ready time means least index
  have hle := hleast j hj hjr
  rw [hC.tracks.ready_eq i (by omega), hC.tracks.ready_eq j (by omega)] at hle
  by_contra hji
  have := ready_le_of_le hs (show j ≤ i by omega) (by omega)
  omega

theorem Sjf.next_spec (hW : WellFormed W) (hC : Loop.AtChoice Sjf.discipline W σ k s) :
    ∃ o, Sjf.discipline.next s = some o ∧ Loop.Admits W (sjnLaw W) σ k o := by
  have hlen := hC.tracks.length_eq
  refine ⟨_, rfl, keep_admits hW hC (fun r hr => by simp only [Sjf.next, hr]) fun hr => ?_⟩
  obtain ⟨hnone, hsome⟩ := Sjf.nextScan_spec s.proc
  simp only [Sjf.next, hr]
  refine ⟨hnone, fun i hi => ?_⟩
  obtain ⟨hlt, hrun, hleast⟩ := hsome i hi
  refine ⟨hlt, hrun, fun j hj hjr => ?_⟩
  have hi' : i < W.length := by omega
  have hj' : j < W.length := by omega
  have hle := hleast j hj hjr
  rw [hC.tracks.exec_eq_left hW hi' (hC.served_le i hi'),
    hC.tracks.exec_eq_left hW hj' (hC.served_le j hj')] at hle
  omega

theorem Rr.next_spec (hW : WellFormed W) (hC : Loop.AtChoice Rr.discipline W σ k s) :
    ∃ o, Rr.discipline.next s = some o ∧ Loop.Admits W (roundRobinLaw W) σ k o := by
  have hlen := hC.tracks.length_eq
  have hlast : s.last = σ.lastStart k := hC.last rfl
  show ∃ o, Rr.rrNext s = some o ∧ _
  cases hr : s.running with
  | none =>
      have hcur := hC.running.symm.trans hr
      obtain ⟨hnone, hsome⟩ := Rr.firstReady_spec s.proc fun i hi => by
        have hi' : i < W.length := by omega
        rw [hC.tracks.exec_eq_left hW hi' (hC.served_le i hi')]
        exact Int.natCast_nonneg _
      refine ⟨Rr.firstReady s.proc, by simp only [Rr.rrNext, hr],
        fun h i hi => hC.forall_eligible hW (hnone h) hi, fun i hi => ?_,
        fun i j _ hi hj => ?_, fun r hr' => ?_, fun r i hr' => ?_⟩
      · obtain ⟨hlt, hrun, -⟩ := hsome i hi
        exact hC.eligible_of_runnable hW hlt hrun
      · obtain ⟨-, -, hleast⟩ := hsome i hi
        exact hC.forall_eligible hW hleast hj
      · rw [hcur] at hr'
        exact absurd hr' (Option.some_ne_none r).symm
      · rw [hcur] at hr'
        exact absurd hr' (Option.some_ne_none r).symm
  | some r =>
      have hcur := hC.running.symm.trans hr
      have hel := hC.carried r hr
      have hr' : r < W.length := mem_jobsOf.mp hel.mem
      by_cases hq : (k - σ.lastStart k) % Rr.interval = 0
      · -- the quantum is over: the scan stops at the cyclically next runnable index
        obtain ⟨i, hrot, hi, hrun, hnext⟩ :=
          Rr.rotate_next (by omega) ((hC.runnable_iff hW hr').mpr hel)
        have hiel := hC.eligible_of_runnable hW hi hrun
        refine ⟨some i, ?_, fun h => absurd h (Option.some_ne_none i), ?_, ?_, ?_, ?_⟩
        · simp only [Rr.rrNext, hr, hC.now, hlast, hq, if_true, hrot, Option.map_some]
        · intro j hj
          rw [← Option.some.inj hj]
          exact hiel
        · intro i' j hnone
          rw [hcur] at hnone
          exact absurd hnone (Option.some_ne_none r)
        · intro r' _ hne
          exact absurd hq hne
        · intro r₁ i₁ hr₁ _ hi₁
          rw [hcur, Option.some.injEq] at hr₁
          obtain rfl := Option.some.inj hi₁
          subst hr₁
          rcases hnext with ⟨hlt, hleast⟩ | ⟨hle, hleast⟩
          · exact Or.inl ⟨hlt, fun j hj => hC.forall_eligible hW hleast hj⟩
          · exact Or.inr ⟨hle, fun j hj => hC.forall_eligible hW hleast hj⟩
      · refine ⟨some r, ?_, fun h => absurd h (Option.some_ne_none r), ?_, ?_, ?_, ?_⟩
        · simp only [Rr.rrNext, hr, hC.now, hlast, hq, if_false]
        · intro i hi
          exact hC.carried i (hr.trans hi)
        · intro i j hnone
          rw [hcur] at hnone
          exact absurd hnone (Option.some_ne_none r)
        · intro r' hr₁ _
          exact hcur.symm.trans hr₁
        · intro r' i _ hq'
          exact absurd hq' hq

/-! ## The three disciplines -/

section Obeys

variable (hos : os.Healthy) (hW : WellFormed W)
include hos hW

theorem Fifo.obeys (hs : W.Pairwise fun a b => a.ready ≤ b.ready) :
    Fifo.discipline.Obeys os W (fcfsLaw W) where
  spawns := Fifo.spawns hos
  wakeup s i := by simp [Fifo.discipline, procBlock, procWakeup, schedSetscheduler]
  next _ _ _ := Fifo.next_spec hW hs

theorem Sjf.obeys : Sjf.discipline.Obeys os W (sjnLaw W) where
  spawns := Sjf.spawns hos
  wakeup s i := by simp [Sjf.discipline, schedSetscheduler]
  next _ _ _ := Sjf.next_spec hW

theorem Rr.obeys : Rr.discipline.Obeys os W (roundRobinLaw W) where
  spawns := Rr.spawns hos
  wakeup s i := by simp [Rr.discipline, procBlock, procWakeup, schedSetscheduler]
  next _ _ _ := Rr.next_spec hW

end Obeys

end ProcSched
