/-
  ProcSched.Props.FailedFork

  What a failed fork does.  SJF and PSJF pass the -1 on to `sched_setaffinity`,
  which fails and ends the program.  `proc_exec` of FIFO and RR returns -1 before
  that call: the entry keeps the pid that stands for a process that has not
  arrived, is never selected and never counted, and the loop goes on forever.
-/

import ProcSched.Props.Integrity
import ProcSched.Refine.Faults

namespace ProcSched

/-- The program ends with an error, or the scheduler leaves its loop and every
    process whose fork has succeeded has got its units. -/
def Policy.Stops (P : Policy) (os : Os) (q : Qsort) (W : List Process) : Prop :=
  ∃ k s, P.run os q W k = .exit s ∨ P.run os q W k = .done s ∧
    ∀ i < W.length, (entry s.proc i).pid ≠ -1 →
      ((s.log.stamps (.decrement i)).length : Int) = (entry (P.table q W) i).exec

/-- A run that ends as that of the healed kernel, or with an error, stops. -/
theorem Policy.stops_of_exit_or_eq {P : Policy} {os : Os} {q : Qsort} {W : List Process}
    {pattern : ℕ → Bool} (hos : os.Faulty pattern) (hW : WellFormed W) (hz : P.Fresh W)
    (h : ∀ k, (∃ s, P.run os q W k = .exit s) ∨ P.run os q W k = P.run os.healed q W k) :
    P.Stops os q W := by
  obtain ⟨s, hs, hunits⟩ :=
    (P.describes (q := q) hos.healed hW hz).exists_done (P.table_wellFormed hW)
  -- the healed kernel is done after `makespan W + 1` iterations
  rcases h (makespan W + 1) with ⟨t, ht⟩ | heq
  · exact ⟨_, t, Or.inl ht⟩
  · refine ⟨_, s, Or.inr ⟨heq.trans hs, fun i hi _ => ?_⟩⟩
    exact hunits i (by rw [P.length_table]; exact hi)

/-! ## SJF and PSJF -/

section

variable {os : Os} {pattern : ℕ → Bool} (hos : os.Faulty pattern)
include hos

/-- The call after a failed fork ends the program. -/
theorem fork_error_or_eq (now : ℕ) (log : Log) :
    (∃ l, Psjf.procAssignCpu os now (os.fork log) 1
        (log ++ [(now, .call (.fork (os.fork log)))]) = .error l) ∨
      os.healed.fork log = os.fork log := by
  rcases hos.fork_cases log with hfail | hpos
  · have hset := hos.setaffinity_fail 1
    refine Or.inl ⟨log ++ [(now, .call (.fork (-1)))] ++ [(now, .call (.setaffinity (-1) 1))], ?_⟩
    simp only [hfail, Psjf.procAssignCpu, Fifo.procAssignCpu, if_pos hset]
    rfl
  · exact Or.inr (Os.healed_fork hpos)

theorem Sjf.spawn_error_or_eq (now i : ℕ) (p : Process) (log : Log) :
    (∃ l, spawn os now i p log = .error l) ∨
      spawn os now i p log = spawn os.healed now i p log := by
  rcases fork_error_or_eq hos now log with ⟨l, hl⟩ | heq
  · exact Or.inl ⟨l, by simp only [spawn, hl]⟩
  · refine Or.inr ?_
    rw [spawn, spawn, heq]
    rfl

theorem Psjf.spawn_error_or_eq (now i : ℕ) (p : Process) (log : Log) :
    (∃ l, spawn os now i p log = .error l) ∨
      spawn os now i p log = spawn os.healed now i p log := by
  rcases fork_error_or_eq hos now log with ⟨l, hl⟩ | heq
  · exact Or.inl ⟨l, by simp only [spawn, processReady, hl, Except.map]⟩
  · refine Or.inr ?_
    rw [spawn, spawn, processReady, processReady, heq]
    rfl

/-- An iteration of SJF ends the program, or no fork has failed in it. -/
theorem Sjf.step_exit_or_eq (s : Loop.State) :
    (∃ t, discipline.step os s = .exit t) ∨
      discipline.step os s = discipline.step os.healed s := by
  rw [Loop.Discipline.step, Loop.Discipline.step, Loop.Discipline.arrive, Loop.Discipline.arrive]
  cases discipline.finishTest s with
  | next s₁ =>
      rw [Outcome.bind_next, Outcome.bind_next, Loop.Discipline.forkReady,
        Loop.Discipline.forkReady]
      rcases forkScan_error_or_eq s₁.now (spawn_error_or_eq hos s₁.now) 0 s₁.proc s₁.log
        with ⟨l, hl⟩ | heq
      · exact Or.inl ⟨{ s₁ with log := l }, by
          rw [show forkScan (discipline.spawn os s₁.now) s₁.now 0 s₁.proc s₁.log = .error l
            from hl]
          rfl⟩
      · refine Or.inr ?_
        rw [show forkScan (discipline.spawn os s₁.now) s₁.now 0 s₁.proc s₁.log =
          forkScan (discipline.spawn os.healed s₁.now) s₁.now 0 s₁.proc s₁.log from heq]
        rfl
  | _ => exact Or.inr rfl

theorem Psjf.step_exit_or_eq (s : State) :
    (∃ t, step os s = .exit t) ∨ step os s = step os.healed s := by
  rw [step, step]
  split
  · exact Or.inr rfl
  · rw [forkReady, forkReady]
    rcases forkScan_error_or_eq s.time (spawn_error_or_eq hos s.time) 0 s.proc s.log
      with ⟨l, hl⟩ | heq
    · exact Or.inl ⟨{ s with log := l }, by rw [hl]; rfl⟩
    · exact Or.inr (by rw [heq])

variable {q : Qsort} {W : List Process} (hW : WellFormed W)
include hW

theorem Sjf.stops : Policy.sjf.Stops os q W := by
  refine Policy.stops_of_exit_or_eq hos hW (fun h => by cases h) fun k => ?_
  rcases Outcome.run_exit_or_eq (o := start os q W) (step_exit_or_eq hos) k with ⟨t, ht⟩ | heq
  · exact Or.inl ⟨t.snapshot, congrArg (Outcome.map Loop.State.snapshot) ht⟩
  · exact Or.inr (congrArg (Outcome.map Loop.State.snapshot) heq)

theorem Psjf.stops (hz : ZeroWaiting W) : Policy.psjf.Stops os q W := by
  refine Policy.stops_of_exit_or_eq hos hW (fun _ => hz) fun k => ?_
  rcases Outcome.run_exit_or_eq (o := start os W) (step_exit_or_eq hos) k with ⟨t, ht⟩ | heq
  · exact Or.inl ⟨t.snapshot, congrArg (Outcome.map State.snapshot) ht⟩
  · exact Or.inr (congrArg (Outcome.map State.snapshot) heq)

end

/-! ## FIFO and RR -/

namespace Loop

/-- A discipline whose failed forks go unnoticed. -/
structure Discipline.Tolerant (d : Discipline) (os : Os) : Prop where
  goes_on : ∀ now i p log l, d.spawn os now i p log ≠ .error l
  spawn : ∀ now i p log, 0 < os.fork log →
    d.spawn os now i p log = d.spawn os.healed now i p log
  wakeup : ∀ s i, d.wakeup os s i = d.wakeup os.healed s i

variable {d : Discipline} {os : Os} {pattern : ℕ → Bool} {W : List Process} {log : Log}
  {o : Outcome State} (hos : os.Faulty pattern) (ht : d.Tolerant os)

include ht in
theorem step_ne_exit (s t : State) : d.step os s ≠ .exit t := by
  intro h
  rw [Discipline.step, Discipline.arrive] at h
  cases htest : d.finishTest s with
  | next s₁ =>
      rw [htest, Outcome.bind_next, Discipline.forkReady] at h
      split at h
      · next l hl => exact forkScan_ne_error (ht.goes_on s₁.now) 0 s₁.proc s₁.log l hl
      · rw [Outcome.bind_next, Discipline.contextSwitch] at h
        split at h
        · cases h
        · cases h
        · split at h <;> cases h
  | done s₁ =>
      rw [htest] at h
      cases h
  | exit s₁ =>
      rcases finishTest_cases (d := d) s with ⟨hkeep, -⟩ | ⟨r, -, -, hreap⟩
      · rw [htest] at hkeep
        cases hkeep
      · rw [htest] at hreap
        split at hreap <;> cases hreap
  | hang s₁ =>
      rw [htest] at h
      cases h

variable (hf : d.Forks os) (hp : d.Picks) (hW : WellFormed W)
  (hlog : log.forked = []) (ho : o = .next (State.initial W log))
include hos ht hf hp hW hlog ho

/-- With the forks of all processes succeeding the run is that of the healed kernel. -/
theorem run_eq_healed (hall : ∀ j < W.length, pattern j = true) (k : ℕ) :
    Outcome.run (d.step os) o k = Outcome.run (d.step os.healed) o k := by
  -- in every state of the run the next forks are among the first `W.length`, which succeed
  refine Outcome.run_congr (fun k s hs => ?_) k
  obtain ⟨hnow, h⟩ := forked_of_next hos hf hp hW.ready_nonneg
    (fun p hp => by have := hW.exec_pos p hp; omega) hlog ho k s hs
  have hswitch : ∀ t, d.contextSwitch os t = d.contextSwitch os.healed t := fun t => by
    simp only [Discipline.contextSwitch, ht.wakeup]
  rw [Discipline.step, Discipline.step, Discipline.arrive, Discipline.arrive]
  cases htest : d.finishTest s with
  | next s₁ =>
      have h₁ := h.finishTest htest
      have hnow₁ : s₁.now = k := (finishTest_now htest).trans hnow
      have hscan : forkScan (d.spawn os s₁.now) s₁.now 0 s₁.proc s₁.log =
          forkScan (d.spawn os.healed s₁.now) s₁.now 0 s₁.proc s₁.log := by
        refine forkScan_congr (n := W.length) (fun i p l hl => ?_)
          (fun i p l p' l' hsp => ?_) 0 s₁.proc s₁.log ?_
        · exact ht.spawn _ i p l (hos.fork_ok l (hall _ hl)).1
        · rw [hf.forked _ _ _ _ _ _ hsp, List.length_append, List.length_singleton]
        -- the forks so far and those of this scan are for different entries
        · rw [hnow₁, h₁.due, h₁.count, ← countP_lt_succ]
          exact List.countP_le_length
      simp only [Outcome.bind_next, Discipline.forkReady, hscan, funext hswitch]
  | _ => rfl

omit ht in
/-- A loop that ends has had no failed fork. -/
theorem pattern_of_done {k : ℕ} {s : State} (hs : Outcome.run (d.step os) o k = .done s) :
    ∀ j < W.length, pattern j = true := by
  obtain ⟨c, t, hrun, -, -, -, hdone⟩ := tally_of_done hf hp ho hs
  obtain ⟨-, h⟩ := forked_of_next hos hf hp hW.ready_nonneg
    (fun p hp => by have := hW.exec_pos p hp; omega) hlog ho c t hrun
  -- everybody has been run, so everybody has a pid
  have hpid : ∀ i < W.length, (entry t.proc i).pid ≠ -1 := fun i hi hnone =>
    h.untouched i hi hnone (hdone i hi)
  -- and every process has been forked for, so the first `W.length` forks were made
  have hcount : t.log.forked.length = W.length := by
    rw [h.count, List.countP_eq_length]
    intro p hp
    obtain ⟨i, hi, rfl⟩ := List.getElem_of_mem hp
    rw [← entry_eq_getElem hi]
    exact decide_eq_true (h.early i hi (hpid i hi))
  intro j hj
  by_contra hfail
  rw [Bool.not_eq_true] at hfail
  -- a failed one among them would have left an entry without a pid
  obtain ⟨i, hi, hnone, -⟩ := h.lost (h.failed j (by rw [hcount]; exact hj) hfail)
  exact hpid i hi hnone

end Loop

section

variable {os : Os} {pattern : ℕ → Bool} (hos : os.Faulty pattern)
include hos

/-- `proc_exec` never ends the program: the pid it passes on is that of a child. -/
theorem procExec_ne_error {assign : Int → ℕ → Log → Except Log Log} {now : ℕ}
    (hassign : ∀ pid log, 0 < pid →
      assign pid 1 log = .ok (log ++ [(now, .call (.setaffinity pid 1))])) (log l : Log) :
    procExec assign os now log ≠ .error l := by
  rcases hos.fork_cases log with hfail | hpos
  · rw [procExec, if_pos (by omega)]
    exact fun h => by cases h
  · rw [procExec, if_neg (by omega), hassign _ _ hpos]
    exact fun h => by cases h

omit hos in
theorem procExec_healed {assign : Int → ℕ → Log → Except Log Log} {now : ℕ} {log : Log}
    (hpos : 0 < os.fork log) : procExec assign os now log = procExec assign os.healed now log := by
  rw [procExec, procExec, Os.healed_fork hpos]

/-- The fork scan's body of FIFO and RR goes on with whatever `proc_exec` returns. -/
theorem Loop.tolerant_of_procExec {d : Loop.Discipline}
    {assign : Os → ℕ → Int → ℕ → Log → Except Log Log}
    (hassign : ∀ now pid log, 0 < pid →
      assign os now pid 1 log = .ok (log ++ [(now, .call (.setaffinity pid 1))]))
    (hsame : assign os.healed = assign os)
    (hspawn : ∀ os now i p log, d.spawn os now i p log =
      match procExec (assign os now) os now log with
      | .error log => .error log
      | .ok (pid, log) =>
        .ok ({ p with pid := pid }, procBlock now pid log ++ [(now, .mark (.fork i))]))
    (hwakeup : ∀ s i, d.wakeup os s i = d.wakeup os.healed s i) : d.Tolerant os where
  goes_on now i p log l h := by
    rw [hspawn] at h
    split at h
    · next l' hexec => exact procExec_ne_error hos (hassign now) log l' hexec
    · cases h
  spawn now i p log hpos := by
    rw [hspawn, hspawn, hsame, procExec_healed hpos]
  wakeup := hwakeup

theorem Fifo.tolerant : Fifo.discipline.Tolerant os :=
  Loop.tolerant_of_procExec hos
    (fun now _ log hpid => procAssignCpu_ok hos.healed hpid now 1 log) rfl
    (fun _ _ _ _ _ => rfl) fun _ _ => rfl

theorem Rr.tolerant : Rr.discipline.Tolerant os :=
  Loop.tolerant_of_procExec hos
    (fun now _ log hpid => Psjf.procAssignCpu_ok hos.healed hpid (by omega) now log) rfl
    (fun _ _ _ _ _ => rfl) fun _ _ => rfl

/-- What the two loops have in common: they never end with an error, they end only
    if no fork has failed, and then run as with the healed kernel. -/
structure Policy.Oblivious (P : Policy) (os : Os) (q : Qsort) (W : List Process)
    (pattern : ℕ → Bool) : Prop where
  ne_exit : ∀ k s, P.run os q W k ≠ .exit s
  pattern_of_done : ∀ k s, P.run os q W k = .done s → ∀ j < W.length, pattern j = true
  eq_healed : (∀ j < W.length, pattern j = true) →
    ∀ k, P.run os q W k = P.run os.healed q W k

variable {q : Qsort} {W : List Process}

omit hos in
theorem Policy.Oblivious.stops_iff_pattern {P : Policy} (h : P.Oblivious os q W pattern)
    (hos : os.Faulty pattern) (hW : WellFormed W) (hz : P.Fresh W) :
    P.Stops os q W ↔ ∀ j < W.length, pattern j = true := by
  constructor
  · rintro ⟨k, s, hs | ⟨hs, -⟩⟩
    · exact absurd hs (h.ne_exit k s)
    · exact h.pattern_of_done k s hs
  · exact fun hall => Policy.stops_of_exit_or_eq hos hW hz fun k => Or.inr (h.eq_healed hall k)

/-- A loop of a tolerant discipline over the sorted table. -/
theorem Loop.oblivious {d : Loop.Discipline} {P : Policy} {log : Log}
    {o : Outcome Loop.State} (ht : d.Tolerant os) (hf : d.Forks os) (hp : d.Picks)
    (hW : WellFormed W) (hlog : log.forked = [])
    (ho : o = .next (Loop.State.initial (P.table q W) log))
    (hrun : ∀ k, P.run os q W k = (Outcome.run (d.step os) o k).map Loop.State.snapshot)
    (hhealed : ∀ k,
      P.run os.healed q W k = (Outcome.run (d.step os.healed) o k).map Loop.State.snapshot) :
    P.Oblivious os q W pattern := by
  have hT := P.table_wellFormed (q := q) hW
  have hlen := P.length_table q W
  refine ⟨fun k s hs => ?_, fun k s hs => ?_, fun hall k => ?_⟩
  · rw [hrun] at hs
    cases hr : Outcome.run (d.step os) o k with
    | exit t =>
        have hstart : ∀ t, o ≠ .exit t := fun t h => by
          rw [ho] at h
          cases h
        exact Outcome.run_ne_exit hstart (Loop.step_ne_exit ht) k t hr
    | _ =>
        rw [hr] at hs
        cases hs
  · rw [hrun] at hs
    obtain ⟨t, ht, -⟩ := Outcome.map_eq_done.mp hs
    rw [← hlen]
    exact Loop.pattern_of_done hos hf hp hT hlog ho ht
  · rw [← hlen] at hall
    rw [hrun, hhealed, Loop.run_eq_healed hos ht hf hp hT hlog ho hall]

theorem Fifo.oblivious (hW : WellFormed W) : Policy.fifo.Oblivious os q W pattern := by
  obtain ⟨log, hlog, hstart⟩ := Fifo.start_ok hos.healed q W
  exact Loop.oblivious hos (Fifo.tolerant hos) (Fifo.forks os) Fifo.picks hW hlog.forked hstart
    (fun _ => rfl) fun _ => rfl

theorem Rr.oblivious (hW : WellFormed W) : Policy.rr.Oblivious os q W pattern := by
  obtain ⟨log, hlog, hstart⟩ := Rr.start_ok hos.healed q W
  exact Loop.oblivious hos (Rr.tolerant hos) (Rr.forks os) Rr.picks hW hlog.forked hstart
    (fun _ => rfl) fun _ => rfl

end

/-- A scheduler stops, for the forks that fail, exactly if it is SJF or PSJF or none
    of the forks for the processes of the workload fails. -/
theorem stops_iff (P : Policy) (os : Os) (q : Qsort) (W : List Process) (pattern : ℕ → Bool)
    (hos : os.Faulty pattern) (hW : WellFormed W) (hz : P.Fresh W) :
    P.Stops os q W ↔ P = .sjf ∨ P = .psjf ∨ ∀ j < W.length, pattern j = true := by
  cases P with
  | fifo =>
      rw [(Fifo.oblivious hos hW).stops_iff_pattern hos hW hz]
      simp
  | rr =>
      rw [(Rr.oblivious hos hW).stops_iff_pattern hos hW hz]
      simp
  | sjf => exact iff_of_true (Sjf.stops hos hW) (Or.inl rfl)
  | psjf => exact iff_of_true (Psjf.stops hos hW (hz rfl)) (Or.inr (Or.inl rfl))

theorem stops_iff_readme :
    Policy.rr.Stops (Os.failing fun j => j ≠ 1) Qsort.insertion readmeWorkload ↔
      Policy.rr = .sjf ∨ Policy.rr = .psjf ∨
        ∀ j < readmeWorkload.length, (fun j => decide (j ≠ 1)) j = true :=
  stops_iff .rr _ Qsort.insertion readmeWorkload _ (Os.failing_faulty _) (by decide)
    fun h => by cases h

/-- With its first fork failing, neither FIFO nor RR ever stops. -/
theorem readme_not_stops :
    (Os.failing fun j => j ≠ 0).Faulty (fun j => j ≠ 0) ∧ WellFormed readmeWorkload ∧
      ZeroWaiting readmeWorkload ∧
      ¬ Policy.fifo.Stops (Os.failing fun j => j ≠ 0) Qsort.insertion readmeWorkload ∧
      ¬ Policy.rr.Stops (Os.failing fun j => j ≠ 0) Qsort.insertion readmeWorkload := by
  have hos : (Os.failing fun j => j ≠ 0).Faulty (fun j => j ≠ 0) := Os.failing_faulty _
  have hW : WellFormed readmeWorkload := by decide
  have hfail : ¬ ∀ j < readmeWorkload.length, (fun j => decide (j ≠ 0)) j = true :=
    fun h => by simpa using h 0 (by decide)
  refine ⟨hos, hW, by decide, fun h => hfail ?_, fun h => hfail ?_⟩
  · exact ((Fifo.oblivious hos hW).stops_iff_pattern hos hW fun h => by cases h).mp h
  · exact ((Rr.oblivious hos hW).stops_iff_pattern hos hW fun h => by cases h).mp h

end ProcSched
