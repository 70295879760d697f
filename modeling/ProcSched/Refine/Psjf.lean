/-
  ProcSched.Refine.Psjf

  The loop of PSJF.c follows a schedule: shortest remaining work first.  The
  `waiting` flags mark the released unfinished processes once the fork scan of
  the iteration is over, provided they start at 0; pids identify the entries, so
  that the test `running != pre_running` sees a change of process.
-/

import ProcSched.Refine.Disciplines

namespace ProcSched

namespace WellFormed

variable {W : List Process} (hW : WellFormed W)
include hW

/-- Only a process that is alone can be as long as `INT_MAX`. -/
theorem exec_lt_intMax (hlen : W.length ≠ 1) {i : ℕ} (hi : i < W.length) :
    (entry W i).exec < intMax := by
  obtain ⟨j, hj, hij⟩ : ∃ j < W.length, i ≠ j := by
    rcases Nat.eq_zero_or_pos i with h | h
    · exact ⟨1, by omega, by omega⟩
    · exact ⟨0, by omega, by omega⟩
  have hsub : ({i, j} : Finset ℕ) ⊆ (jobsOf W).jobs := by
    intro x hx
    rcases Finset.mem_insert.mp hx with rfl | hx
    · exact mem_jobsOf.mpr hi
    · rw [Finset.mem_singleton.mp hx]
      exact mem_jobsOf.mpr hj
  have hpair : (jobsOf W).length i + (jobsOf W).length j ≤ (jobsOf W).total := by
    rw [← Finset.sum_pair hij]
    exact Finset.sum_le_sum_of_subset hsub
  have h₁ := hW.total_eq
  have h₂ := hW.length_eq hi
  have h₃ := hW.jobs_length_pos hj
  have h₄ := hW.bounded _ (entry_mem hi)
  have h₅ := hW.ready_nonneg _ (entry_mem hi)
  omega

end WellFormed

namespace Psjf

variable {os : Os} {W : List Process} {σ : Schedule ℕ} {k i : ℕ} {s : State}

/-- The state at the top of iteration `k`. -/
structure Inv (W : List Process) (σ : Schedule ℕ) (k : ℕ) (s : State) : Prop where
  time : s.time = k
  tracks : Tracks W σ k s.proc
  waiting : ∀ i < W.length, (entry s.proc i).waiting = 1 ↔
    (jobsOf W).release i < k ∧ σ.served k i < (jobsOf W).length i
  pid_pos : ∀ i < W.length, (jobsOf W).release i < k → 0 < (entry s.proc i).pid
  pid_mem : ∀ i < W.length, (jobsOf W).release i < k → (entry s.proc i).pid ∈ s.log.forked
  pid_inj : ∀ i < W.length, ∀ j < W.length, (jobsOf W).release i < k → (jobsOf W).release j < k →
    (entry s.proc i).pid = (entry s.proc j).pid → i = j
  pre : s.preRunning = -1 ∨ ∃ i < W.length, (jobsOf W).release i < k ∧
    s.preRunning = (entry s.proc i).pid ∧
      (σ.prev k = some i ∨ (jobsOf W).length i ≤ σ.served k i)
  pre_prev : ∀ i, σ.prev k = some i → s.preRunning = (entry s.proc i).pid
  finished : s.finished = (jobsOf W).completed σ k
  marks : s.log.marks = trace W σ 0 k

/-- The state in iteration `k` after the fork scan. -/
structure AtChoice (W : List Process) (σ : Schedule ℕ) (k : ℕ) (s : State) : Prop where
  time : s.time = k
  tracks : Tracks W σ k s.proc
  waiting : ∀ i < W.length, (entry s.proc i).waiting = 1 ↔ (jobsOf W).Eligible σ k i
  pid_pos : ∀ i < W.length, (jobsOf W).release i ≤ k → 0 < (entry s.proc i).pid
  pid_mem : ∀ i < W.length, (jobsOf W).release i ≤ k → (entry s.proc i).pid ∈ s.log.forked
  pid_inj : ∀ i < W.length, ∀ j < W.length, (jobsOf W).release i ≤ k → (jobsOf W).release j ≤ k →
    (entry s.proc i).pid = (entry s.proc j).pid → i = j
  pre : s.preRunning = -1 ∨ ∃ i < W.length, (jobsOf W).release i ≤ k ∧
    s.preRunning = (entry s.proc i).pid ∧
      (σ.prev k = some i ∨ (jobsOf W).length i ≤ σ.served k i)
  pre_prev : ∀ i, σ.prev k = some i → s.preRunning = (entry s.proc i).pid
  finished : s.finished = (jobsOf W).completed σ k
  marks : s.log.marks = trace W σ 0 k ++ forkMarks W k
  served_le : ∀ i < W.length, σ.served k i ≤ (jobsOf W).length i

/-- The law of `find_min_index`. -/
def srptLaw (W : List Process) : ChoiceLaw := fun σ t o => ∀ i j, o = some i →
  (jobsOf W).Eligible σ t j →
    (jobsOf W).left σ t i < (jobsOf W).left σ t j ∨
      (jobsOf W).left σ t i = (jobsOf W).left σ t j ∧ i ≤ j

/-- The entry selected after the fork scan, if any. -/
def choice (s : State) : Option ℕ :=
  if someProcessIsReady s.proc then some (findMinIndex s.proc) else none

theorem choice_eq_some :
    choice s = some i ↔ someProcessIsReady s.proc = true ∧ findMinIndex s.proc = i := by
  by_cases h : someProcessIsReady s.proc = true
  · rw [choice, if_pos h, Option.some.injEq]
    exact (and_iff_right h).symm
  · rw [choice, if_neg h]
    exact iff_of_false (Option.some_ne_none i).symm fun hs => h hs.1

/-! ## The fork scan -/

theorem spawns (hos : os.Healthy) (now : Nat) :
    Spawns now (fun pid p => { p with pid := pid, waiting := 1 }) (spawn os now) := by
  intro i p log
  refine ⟨os.fork log, _, by
    simp only [spawn, processReady, Psjf.procAssignCpu_ok hos (hos.fork_pos log)
      (show 1 ≤ 128 by omega), Except.map, schedSetscheduler, List.append_assoc]; rfl,
    hos.fork_pos log, hos.fork_fresh log, by simp, by simp⟩

theorem spawn_eq (hos : os.Healthy) (now i : ℕ) (p : Process) (log : Log) :
    spawn os now i p log = .ok ({ p with pid := os.fork log, waiting := 1 },
      log ++ [(now, .call (.fork (os.fork log))),
        (now, .call (.setaffinity (os.fork log) 1)),
        (now, .call (.setscheduler (os.fork log) .fifo blockPriority)),
        (now, .mark (.fork i))]) := by
  simp only [spawn, processReady, Psjf.procAssignCpu_ok hos (hos.fork_pos log)
    (show 1 ≤ 128 by omega), Except.map, schedSetscheduler, List.append_assoc, List.cons_append,
    List.nil_append]

/-- The fork scan makes the processes waiting whose ready time has come. -/
theorem forkReady_spec (hos : os.Healthy) (hW : WellFormed W) (hI : Inv W σ k s)
    {law : ChoiceLaw} (hB : Before W law σ k) :
    ∃ s', forkReady os s = .next s' ∧ AtChoice W σ k s' := by
  obtain ⟨proc, new, pids, hscan, hspec⟩ := forkScan_spec (spawns hos s.time) 0 s.proc s.log
  rw [hI.time] at hspec
  have hnew := fun i hi hr => hspec.forked hI.tracks hW (i := i) hi hr
  have hold := fun i hi hr => hspec.untouched hI.tracks hW (i := i) hi hr
  have hpid : ∀ i < W.length, (jobsOf W).release i = k → (entry proc i).pid = pids i :=
    fun i hi hr => congrArg Process.pid (hnew i hi hr).1
  refine ⟨{ s with proc := proc, log := s.log ++ new }, by rw [forkReady, hscan], ?_⟩
  refine ⟨hI.time, hspec.tracks hI.tracks hW fun _ _ => ⟨rfl, rfl, rfl⟩, fun i hi => ?_,
    fun i hi hle => ?_, fun i hi hle => ?_, fun i hi j hj hil hjl heq => ?_, ?_, fun i hprev => ?_,
    hI.finished, ?_, fun i _ => hB.served_le i⟩
  · by_cases hr : (jobsOf W).release i = k
    · -- a process that is forked has all its units
      rw [(hnew i hi hr).1]
      refine iff_of_true rfl ⟨mem_jobsOf.mpr hi, hr.le, ?_⟩
      rw [hB.served_eq_zero hr.ge]
      exact hW.jobs_length_pos hi
    · rw [hold i hi hr, hI.waiting i hi]
      constructor
      · rintro ⟨hlt, hunf⟩
        exact ⟨mem_jobsOf.mpr hi, hlt.le, hunf⟩
      · intro hel
        exact ⟨lt_of_le_of_ne hel.released hr, hel.unfinished⟩
  · by_cases hr : (jobsOf W).release i = k
    · rw [hpid i hi hr]
      exact (hnew i hi hr).2.1
    · rw [hold i hi hr]
      exact hI.pid_pos i hi (lt_of_le_of_ne hle hr)
  · rw [Log.forked_append, List.mem_append]
    by_cases hr : (jobsOf W).release i = k
    · rw [hpid i hi hr]
      exact Or.inr (hnew i hi hr).2.2.1
    · rw [hold i hi hr]
      exact Or.inl (hI.pid_mem i hi (lt_of_le_of_ne hle hr))
  · have hfresh := fun i hi hr => (hnew i hi hr).2.2.2
    by_cases hri : (jobsOf W).release i = k <;> by_cases hrj : (jobsOf W).release j = k
    · rw [hpid i hi hri, hpid j hj hrj] at heq
      exact hspec.forked_inj hI.tracks hW hi hj hri hrj heq
    · rw [hpid i hi hri, hold j hj hrj] at heq
      exact absurd (heq ▸ hI.pid_mem j hj (lt_of_le_of_ne hjl hrj)) (hfresh i hi hri)
    · rw [hold i hi hri, hpid j hj hrj] at heq
      exact absurd (heq ▸ hI.pid_mem i hi (lt_of_le_of_ne hil hri)) (hfresh j hj hrj)
    · rw [hold i hi hri, hold j hj hrj] at heq
      exact hI.pid_inj i hi j hj (lt_of_le_of_ne hil hri) (lt_of_le_of_ne hjl hrj) heq
  · rcases hI.pre with hpre | ⟨i, hi, hlt, hpre, hwhy⟩
    · exact Or.inl hpre
    · exact Or.inr ⟨i, hi, hlt.le, by rw [hold i hi hlt.ne]; exact hpre, hwhy⟩
  · obtain ⟨hi, hlt⟩ := hB.prev_released hprev
    rw [hold i hi hlt.ne]
    exact hI.pre_prev i hprev
  · rw [Log.marks_append, hI.marks, hspec.marks_eq_forkMarks hI.tracks hW]

/-! ## The selection -/

/-- The counters stay below `INT_MAX` where that matters to `find_min_index`. -/
theorem AtChoice.belowMax (h : AtChoice W σ k s) (hW : WellFormed W) : BelowMax s.proc := by
  have hlen := h.tracks.length_eq
  by_cases hone : W.length = 1
  · exact Or.inl (hlen.trans hone)
  · apply Or.inr
    intro i hi
    have hi' : i < W.length := by omega
    have h₁ := hW.exec_lt_intMax hone hi'
    have h₂ := h.tracks.exec_eq i hi'
    omega

/-- The selected entry is waiting and has the least `exec`, the first of several. -/
theorem choice_least (hmax : BelowMax s.proc) :
    (choice s = none → ∀ i < s.proc.length, (entry s.proc i).waiting ≠ 1) ∧
      ∀ i, choice s = some i → i < s.proc.length ∧ (entry s.proc i).waiting = 1 ∧
        ∀ j < s.proc.length, (entry s.proc j).waiting = 1 →
          (entry s.proc i).exec < (entry s.proc j).exec ∨
            (entry s.proc i).exec = (entry s.proc j).exec ∧ i ≤ j := by
  by_cases hready : someProcessIsReady s.proc = true
  · rw [choice, if_pos hready]
    refine ⟨fun hnone => absurd hnone (Option.some_ne_none _), fun i hi => ?_⟩
    rw [← Option.some.inj hi]
    exact findMinIndex_spec hmax (someProcessIsReady_iff.mp hready)
  · rw [choice, if_neg hready]
    exact ⟨fun _ i hi hw => hready (someProcessIsReady_iff.mpr ⟨i, hi, hw⟩),
      fun i hi => absurd hi (Option.some_ne_none i).symm⟩

/-- The selected entry is eligible and has least work left, the first of several. -/
theorem AtChoice.choice_spec (h : AtChoice W σ k s) (hW : WellFormed W) :
    (choice s = none → ∀ i, ¬ (jobsOf W).Eligible σ k i) ∧
      (∀ i, choice s = some i → (jobsOf W).Eligible σ k i) ∧ srptLaw W σ k (choice s) := by
  obtain ⟨hnone, hsome⟩ := choice_least (h.belowMax hW)
  rw [h.tracks.length_eq] at hnone hsome
  refine ⟨fun hno i hi => ?_, fun i hi => ?_, fun i j hi hj => ?_⟩
  · have hi' := mem_jobsOf.mp hi.mem
    exact hnone hno i hi' ((h.waiting i hi').mpr hi)
  · obtain ⟨hi', hw, -⟩ := hsome i hi
    exact (h.waiting i hi').mp hw
  · obtain ⟨hi', -, hleast⟩ := hsome i hi
    have hj' := mem_jobsOf.mp hj.mem
    have hle := hleast j hj' ((h.waiting j hj').mpr hj)
    rw [h.tracks.exec_eq_left hW hi' (h.served_le i hi'),
      h.tracks.exec_eq_left hW hj' (h.served_le j hj')] at hle
    omega

/-- The pid of the selected process differs from `pre_running` exactly when the
    process was not run in the previous unit. -/
theorem AtChoice.running_ne_iff (h : AtChoice W σ k s) (hel : (jobsOf W).Eligible σ k i) :
    (entry s.proc i).pid ≠ s.preRunning ↔ σ.prev k ≠ some i := by
  have hi : i < W.length := mem_jobsOf.mp hel.mem
  constructor
  · intro hne hprev
    exact hne (h.pre_prev i hprev).symm
  · intro hprev heq
    rcases h.pre with hpre | ⟨j, hj, hjr, hpre, hwhy⟩
    · have := h.pid_pos i hi hel.released
      omega
    · have hij := h.pid_inj i hi j hj hel.released hjr (heq.trans hpre)
      subst hij
      have := hel.unfinished
      rcases hwhy with hwhy | hwhy
      · exact hprev hwhy
      · omega

theorem dispatch_spec (i : ℕ) (s : State) :
    (dispatch i s).proc = s.proc ∧ (dispatch i s).time = s.time ∧
      (dispatch i s).finished = s.finished ∧ (dispatch i s).running = (entry s.proc i).pid ∧
      (dispatch i s).log.forked = s.log.forked ∧ (dispatch i s).log.reaped = s.log.reaped ∧
      (dispatch i s).log.marks = s.log.marks ++ (s.time, .select i) ::
        (if (entry s.proc i).pid ≠ s.preRunning then [(s.time, .switch i)] else []) := by
  by_cases h : (entry s.proc i).pid = s.preRunning
  · simp [dispatch, h]
  · by_cases hp : s.preRunning = -1
    · rw [hp] at h
      simp [dispatch, h, hp, schedSetscheduler]
    · simp [dispatch, h, hp, schedSetscheduler]

/-- One unit for `proc[i]`, which leaves the waiting set with its last one. -/
theorem update_spec {i : ℕ} {s : State} (hi : i < s.proc.length) :
    (∀ j < s.proc.length, entry (update i s).proc j =
      if j = i then { entry s.proc i with
        exec := (entry s.proc i).exec - 1
        waiting := if (entry s.proc i).exec - 1 = 0 then 0 else (entry s.proc i).waiting }
      else entry s.proc j) ∧
    (update i s).proc.length = s.proc.length ∧ (update i s).time = s.time ∧
    (update i s).preRunning = s.running ∧
    (update i s).finished = s.finished + (if (entry s.proc i).exec - 1 = 0 then 1 else 0) ∧
    (update i s).log.forked = s.log.forked ∧
    (update i s).log.marks = s.log.marks ++ (s.time, .decrement i) ::
      (if (entry s.proc i).exec - 1 = 0 then [(s.time, .finish i)] else []) := by
  have hexec : (entry (s.proc.modify i fun p => { p with exec := p.exec - 1 }) i).exec
      = (entry s.proc i).exec - 1 := by
    rw [entry_modify hi, if_pos rfl]
  by_cases hlast : (entry s.proc i).exec - 1 = 0
  · simp only [update, hexec, hlast, if_true]
    refine ⟨fun j hj => ?_, ?_, trivial, trivial, trivial, ?_, ?_⟩
    · rw [entry_modify (by rw [List.length_modify]; exact hj), entry_modify hj]
      by_cases hji : j = i
      · subst hji
        simp only [if_true, hlast]
      · simp only [hji, if_false]
    · rw [List.length_modify, List.length_modify]
    · simp
    · simp
  · simp only [update, hexec, hlast, if_false]
    refine ⟨fun j hj => ?_, ?_, trivial, trivial, (Nat.add_zero _).symm, ?_, ?_⟩
    · rw [entry_modify hj]
      by_cases hji : j = i
      · subst hji
        simp only [if_true]
      · simp only [hji, if_false]
    · rw [List.length_modify]
    · simp
    · simp

/-- One unit of time: nobody runs if nobody is eligible. -/
theorem AtChoice.idle (h : AtChoice W σ k s) (hchoice : choice s = none) (hσ : σ k = none)
    (hno : ∀ i, ¬ (jobsOf W).Eligible σ k i) : Inv W σ (k + 1) (select s).tick := by
  have hready : ¬ someProcessIsReady s.proc = true := fun hr => by
    rw [choice, if_pos hr] at hchoice
    exact absurd hchoice (Option.some_ne_none _)
  have hserved : ∀ i, σ.served (k + 1) i = σ.served k i := fun i =>
    Schedule.served_succ_other (by
      rw [hσ]
      exact (Option.some_ne_none i).symm)
  have hall : ∀ i < W.length, (jobsOf W).release i ≤ k →
      (jobsOf W).length i ≤ σ.served k i := fun i hi hle => by
    by_contra hlt
    exact hno i ⟨mem_jobsOf.mpr hi, hle, by omega⟩
  rw [select, if_neg hready]
  refine ⟨congrArg (· + 1) h.time, h.tracks.idle hσ, fun i hi => ?_, fun i hi hlt => ?_,
    fun i hi hlt => ?_, fun i hi j hj hil hjl => ?_, ?_, fun i hi => ?_, ?_, ?_⟩
  · refine (h.waiting i hi).trans ⟨fun hel => absurd hel (hno i), fun hw => ?_⟩
    have := hall i hi (by omega)
    have := hserved i
    omega
  · exact h.pid_pos i hi (by omega)
  · exact h.pid_mem i hi (by omega)
  · exact h.pid_inj i hi j hj (by omega) (by omega)
  · rcases h.pre with hpre | ⟨i, hi, hle, hpre, -⟩
    · exact Or.inl hpre
    · refine Or.inr ⟨i, hi, by omega, hpre, Or.inr ?_⟩
      rw [hserved]
      exact hall i hi hle
  · rw [Schedule.prev_succ, hσ] at hi
    exact absurd hi (Option.some_ne_none i).symm
  · have := Jobs.completed_succ (J := jobsOf W) (σ := σ) (t := k) fun i hi => by
      rw [hσ] at hi
      exact absurd hi (Option.some_ne_none i).symm
    rw [hσ, if_neg fun h => h.1 rfl, Nat.add_zero] at this
    exact h.finished.trans this.symm
  · rw [trace_succ, hσ, Jobs.ended]
    simp only [Schedule.prev_succ, hσ, Option.filter_none, unitMarks, finishMarks, List.append_nil]
    exact h.marks

/-- What the dispatch and the unit of `proc[i]` leave of the table and its log. -/
theorem serve_spec (s : State) (hi : i < s.proc.length) :
    (update i (dispatch i s)).proc.length = s.proc.length ∧
      (update i (dispatch i s)).time = s.time ∧
      (update i (dispatch i s)).preRunning = (entry s.proc i).pid ∧
      (update i (dispatch i s)).finished =
        s.finished + (if (entry s.proc i).exec - 1 = 0 then 1 else 0) ∧
      (update i (dispatch i s)).log.forked = s.log.forked := by
  obtain ⟨hproc, htime, hfin, hrun, hfork, -⟩ := dispatch_spec i s
  rw [← hproc] at hi
  obtain ⟨-, hlen', htime', hpre', hfin', hfork', -⟩ := update_spec hi
  rw [hproc] at hlen' hfin'
  exact ⟨hlen', htime'.trans htime, hpre'.trans hrun, by rw [hfin', hfin], hfork'.trans hfork⟩

/-- The entry that is served. -/
theorem serve_entry_self (s : State) (hi : i < s.proc.length) :
    entry (update i (dispatch i s)).proc i = { entry s.proc i with
      exec := (entry s.proc i).exec - 1
      waiting := if (entry s.proc i).exec - 1 = 0 then 0 else (entry s.proc i).waiting } := by
  obtain ⟨hproc, -⟩ := dispatch_spec i s
  rw [← hproc] at hi
  obtain ⟨hentry, -⟩ := update_spec hi
  rw [hentry i hi, if_pos rfl, hproc]

/-- The others are not touched. -/
theorem serve_entry_ne (s : State) (hi : i < s.proc.length) {j : ℕ} (hj : j < s.proc.length)
    (hji : j ≠ i) : entry (update i (dispatch i s)).proc j = entry s.proc j := by
  obtain ⟨hproc, -⟩ := dispatch_spec i s
  rw [← hproc] at hi hj
  obtain ⟨hentry, -⟩ := update_spec hi
  rw [hentry j hj, if_neg hji, hproc]

/-- The last unit of a process is the one with which the counter reaches 0. -/
theorem AtChoice.last_iff (h : AtChoice W σ k s) (hW : WellFormed W) (hσ : σ k = some i)
    (hel : (jobsOf W).Eligible σ k i) :
    (entry s.proc i).exec - 1 = 0 ↔ (jobsOf W).length i ≤ σ.served (k + 1) i := by
  have hi : i < W.length := mem_jobsOf.mp hel.mem
  have hself := Schedule.served_succ_self hσ
  have hexec := h.tracks.exec_eq_left hW hi (h.served_le i hi)
  have hunf := hel.unfinished
  rw [Jobs.left] at hexec
  omega

/-- The unit of the selected process, in the schedule. -/
theorem ended_of_run (hσ : σ k = some i) : (jobsOf W).ended σ (k + 1) =
    if (jobsOf W).length i ≤ σ.served (k + 1) i then some i else none := by
  simp only [Jobs.ended, Schedule.prev_succ, hσ, Option.filter_some, decide_eq_true_eq]

/-- The served process waits on, unless that was its last unit. -/
theorem AtChoice.waiting_self (h : AtChoice W σ k s) (hW : WellFormed W) (hσ : σ k = some i)
    (hel : (jobsOf W).Eligible σ k i) :
    (entry (update i (dispatch i s)).proc i).waiting = 1 ↔
      (jobsOf W).release i < k + 1 ∧ σ.served (k + 1) i < (jobsOf W).length i := by
  have hi : i < W.length := mem_jobsOf.mp hel.mem
  have hlast := h.last_iff hW hσ hel
  have hreleased := hel.released
  rw [serve_entry_self s (by rw [h.tracks.length_eq]; exact hi)]
  simp only [(h.waiting i hi).mpr hel]
  split
  · next hz =>
    have := hlast.mp hz
    omega
  · next hz =>
    have := mt hlast.mpr hz
    omega

/-- The others wait as before. -/
theorem AtChoice.waiting_ne (h : AtChoice W σ k s) (hσ : σ k = some i) {j : ℕ}
    (hj : j < W.length) (hji : j ≠ i) : (entry s.proc j).waiting = 1 ↔
      (jobsOf W).release j < k + 1 ∧ σ.served (k + 1) j < (jobsOf W).length j := by
  have hother : σ.served (k + 1) j = σ.served k j := Schedule.served_succ_other (by
    rw [hσ]
    exact fun he => hji (Option.some.inj he).symm)
  rw [h.waiting j hj, hother]
  constructor
  · intro hel
    exact ⟨Nat.lt_succ_of_le hel.released, hel.unfinished⟩
  · rintro ⟨hlt, hunf⟩
    exact ⟨mem_jobsOf.mpr hj, Nat.le_of_lt_succ hlt, hunf⟩

/-- The marks of the unit. -/
theorem AtChoice.serve_marks (h : AtChoice W σ k s) (hW : WellFormed W) (hσ : σ k = some i)
    (hel : (jobsOf W).Eligible σ k i) :
    (update i (dispatch i s)).log.marks = trace W σ 0 (k + 1) := by
  have hi : i < s.proc.length := by
    rw [h.tracks.length_eq]
    exact mem_jobsOf.mp hel.mem
  obtain ⟨hproc, htime, -, -, -, -, hmarks⟩ := dispatch_spec i s
  obtain ⟨-, -, -, -, -, -, hmarks'⟩ := update_spec (i := i) (s := dispatch i s)
    (by rw [hproc]; exact hi)
  rw [hproc] at hmarks'
  rw [hmarks', hmarks, htime, h.time, h.marks, trace_succ, ended_of_run hσ, hσ]
  simp only [h.last_iff hW hσ hel, h.running_ne_iff hel, unitMarks, Nat.add_zero,
    List.append_assoc, decide_eq_true_eq, List.cons_append]
  by_cases hle : (jobsOf W).length i ≤ σ.served (k + 1) i
  · simp [hle, finishMarks]
  · simp [hle, finishMarks]

/-- One unit of time for the selected process. -/
theorem AtChoice.serve (h : AtChoice W σ k s) (hW : WellFormed W) (hchoice : choice s = some i)
    (hσ : σ k = some i) (hel : (jobsOf W).Eligible σ k i) : Inv W σ (k + 1) (select s).tick := by
  obtain ⟨hready, hmin⟩ := choice_eq_some.mp hchoice
  have hi : i < W.length := mem_jobsOf.mp hel.mem
  have hlen := h.tracks.length_eq
  have hi' : i < s.proc.length := by rw [hlen]; exact hi
  obtain ⟨hlen', htime, hpre, hfin, hfork⟩ := serve_spec s hi'
  have hpid : ∀ j < W.length, (entry (update i (dispatch i s)).proc j).pid
      = (entry s.proc j).pid := by
    intro j hj
    by_cases hji : j = i
    · rw [hji, serve_entry_self s hi']
    · rw [serve_entry_ne s hi' (by rw [hlen]; exact hj) hji]
  have hsel : ∀ j, σ k = some j → (jobsOf W).Eligible σ k j := fun j hj => by
    rw [hσ, Option.some.injEq] at hj
    rw [← hj]
    exact hel
  rw [select, if_pos hready, hmin]
  refine ⟨by rw [State.tick_time, htime, h.time], ?_, fun j hj => ?_, fun j hj hlt => ?_,
    fun j hj hlt => ?_, fun j hj l hl hjk hlk heq => ?_,
    Or.inr ⟨i, hi, Nat.lt_succ_of_le hel.released, ?_, Or.inl hσ⟩, fun j hj => ?_, ?_, ?_⟩
  · apply (h.tracks.unit hσ).congr (by rw [List.length_modify]; exact hlen')
    intro j hj
    rw [List.length_modify] at hj
    rw [State.tick_proc, entry_modify hj]
    by_cases hji : j = i
    · rw [if_pos hji, hji, serve_entry_self s hi']
      exact ⟨rfl, rfl, rfl⟩
    · rw [if_neg hji, serve_entry_ne s hi' hj hji]
      exact ⟨rfl, rfl, rfl⟩
  · rw [State.tick_proc]
    by_cases hji : j = i
    · rw [hji]
      exact h.waiting_self hW hσ hel
    · rw [serve_entry_ne s hi' (by rw [hlen]; exact hj) hji]
      exact h.waiting_ne hσ hj hji
  · rw [State.tick_proc, hpid j hj]
    exact h.pid_pos j hj (Nat.le_of_lt_succ hlt)
  · rw [State.tick_proc, State.tick_log, hpid j hj, hfork]
    exact h.pid_mem j hj (Nat.le_of_lt_succ hlt)
  · rw [State.tick_proc, hpid j hj, hpid l hl] at heq
    exact h.pid_inj j hj l hl (Nat.le_of_lt_succ hjk) (Nat.le_of_lt_succ hlk) heq
  · rw [State.tick_preRunning, State.tick_proc, hpre, hpid i hi]
  · rw [Schedule.prev_succ, hσ, Option.some.injEq] at hj
    rw [State.tick_preRunning, State.tick_proc, hpre, ← hj, hpid i hi]
  · rw [State.tick_finished, hfin, h.finished, Jobs.completed_succ hsel, ← Jobs.length_ended,
      ended_of_run hσ]
    simp only [h.last_iff hW hσ hel]
    split <;> simp
  · rw [State.tick_log, h.serve_marks hW hσ hel]

/-! ## One iteration -/

/-- The loop test is false exactly when all the work is done. -/
theorem Inv.finished_iff (hI : Inv W σ k s) :
    s.finished = s.proc.length ↔ (jobsOf W).Finished σ k := by
  rw [Jobs.finished_iff_completed, ← hI.finished, hI.tracks.length_eq]
  exact Iff.of_eq (congrArg (s.finished = ·) (Finset.card_range _).symm)

/-- One iteration keeps the invariant, or the loop is left with all the work
    done. -/
theorem step_spec (hos : os.Healthy) (hW : WellFormed W) (hI : Inv W σ k s)
    (hB : Before W (srptLaw W) σ k) :
    (¬ (jobsOf W).Finished σ k ∧ ∃ s₁, forkReady os s = .next s₁ ∧ AtChoice W σ k s₁ ∧
      step os s = .next (select s₁).tick ∧
      (σ k = choice s₁ → Inv W σ (k + 1) (select s₁).tick ∧ Before W (srptLaw W) σ (k + 1))) ∨
    ((jobsOf W).Finished σ k ∧ step os s = .done s) := by
  by_cases hfin : (jobsOf W).Finished σ k
  · refine Or.inr ⟨hfin, ?_⟩
    rw [step, if_pos (hI.finished_iff.mpr hfin)]
  · obtain ⟨s₁, hfork, hC⟩ := forkReady_spec hos hW hI hB
    obtain ⟨hnone, hsome, hlaw⟩ := hC.choice_spec hW
    refine Or.inl ⟨hfin, s₁, hfork, hC, ?_, fun hσ => ⟨?_, ?_⟩⟩
    · rw [step, if_neg fun h => hfin (hI.finished_iff.mp h), hfork, Outcome.bind_next]
    · cases hch : choice s₁ with
      | none => exact hC.idle hch (hσ.trans hch) (hnone hch)
      | some i => exact hC.serve hW hch (hσ.trans hch) (hsome i hch)
    · rw [← hσ] at hnone hsome hlaw
      exact hB.succ hfin hsome hnone hlaw

/-! ## Whole runs -/

/-- The process run in each unit of a run that goes on. -/
def followed (os : Os) (o : Outcome State) : Schedule ℕ := fun t =>
  match Outcome.run (step os) o t with
  | .next s =>
    if s.finished = s.proc.length then none
    else
      match forkReady os s with
      | .next s₁ => choice s₁
      | _ => none
  | _ => none

theorem followed_of_next {o : Outcome State} {s₁ : State}
    (hs : Outcome.run (step os) o k = .next s) (hfin : s.finished ≠ s.proc.length)
    (hfork : forkReady os s = .next s₁) : followed os o k = choice s₁ := by
  rw [followed, hs]
  simp only [if_neg hfin, hfork]

theorem followed_of_done {o : Outcome State} {s' : State}
    (h : Outcome.run (step os) o (k + 1) = .done s') : followed os o k = none := by
  rw [followed]
  cases hrun : Outcome.run (step os) o k with
  | next s =>
      have hstep := (Outcome.run_succ_of_next hrun).symm.trans h
      by_cases hfin : s.finished = s.proc.length
      · simp only [hfin, if_true]
      · rw [step, if_neg hfin] at hstep
        simp only [hfin, if_false]
        cases hfork : forkReady os s with
        | next s₁ => rw [hfork, Outcome.bind_next] at hstep; cases hstep
        | _ => rfl
  | _ => rfl

theorem inv_initial (hW : WellFormed W) (hz : ZeroWaiting W) (hs : s.proc = W)
    (htime : s.time = 0) (hpre : s.preRunning = -1) (hfin : s.finished = 0)
    (hmarks : s.log.marks = []) : Inv W σ 0 s where
  time := htime
  tracks := Tracks.start σ (congrArg List.length hs) fun i _ => by rw [hs]; exact ⟨rfl, rfl, rfl⟩
  waiting i hi := by
    have := hz _ (entry_mem hi)
    rw [hs, this]
    exact iff_of_false (by omega) fun h => absurd h.1 (Nat.not_lt_zero _)
  pid_pos i _ hlt := absurd hlt (Nat.not_lt_zero _)
  pid_mem i _ hlt := absurd hlt (Nat.not_lt_zero _)
  pid_inj i _ j _ hlt := absurd hlt (Nat.not_lt_zero _)
  pre := Or.inl hpre
  pre_prev i hi := absurd hi (Option.some_ne_none i).symm
  finished := by rw [hfin, hW.completed_zero]
  marks := hmarks

theorem start_ok (hos : os.Healthy) (proc : List Process) :
    ∃ s, start os proc = .next s ∧ s.proc = proc ∧ s.time = 0 ∧ s.preRunning = -1 ∧
      s.finished = 0 ∧ s.log.marks = [] := by
  refine ⟨_, by rw [start, procAssignCpu_ok hos hos.getpid_pos (Nat.zero_le 128)], rfl, rfl, rfl,
    rfl, by simp⟩

theorem run_spec (hos : os.Healthy) (hW : WellFormed W) (hz : ZeroWaiting W) :
    ∃ T, Completes W (srptLaw W) (followed os (start os W)) T ∧
      (∀ k ≤ T, ∃ s, psjf os W k = .next s ∧ Inv W (followed os (start os W)) k s ∧
        Before W (srptLaw W) (followed os (start os W)) k) ∧
      ∃ s, psjf os W (T + 1) = .done s ∧ Inv W (followed os (start os W)) T s := by
  obtain ⟨s, hs, hproc, htime, hpre, hfin, hmarks⟩ := start_ok hos W
  refine completes_of_step hW ⟨s, hs, inv_initial hW hz hproc htime hpre hfin hmarks⟩
    (fun k s hs hI hB => ?_) fun k s hs => followed_of_done hs
  rcases step_spec hos hW hI hB with ⟨hnot, s₁, hfork, -, hstep, hnext⟩ | ⟨hfin, hstep⟩
  · refine Or.inl ⟨hnot, _, hstep, hnext ?_⟩
    exact followed_of_next hs (fun h => hnot (hI.finished_iff.mp h)) hfork
  · exact Or.inr ⟨hfin, s, hstep, hI⟩

theorem Inv.shows (hI : Inv W σ k s) : Shows W σ 0 k s.snapshot where
  clock := hI.time
  tracks := hI.tracks
  finished := hI.finished
  marks := (List.append_nil _).trans hI.marks

/-- A run of `PSJF` is described by the processes it runs. -/
theorem describes (hos : os.Healthy) (hW : WellFormed W) (hz : ZeroWaiting W) :
    ∃ T, Describes (fun k => (psjf os W k).map State.snapshot) W (srptLaw W)
      (followed os (start os W)) 0 T := by
  obtain ⟨T, hC, hnext, s, hs, hI⟩ := run_spec hos hW hz
  refine ⟨T, { hC with next := fun k hk => ?_, done := fun k hk => ?_ }⟩
  · obtain ⟨s, hs, hI, -⟩ := hnext k hk
    exact ⟨_, by rw [hs, Outcome.map_next], hI.shows⟩
  · refine ⟨s.snapshot, ?_, hI.time, hI.tracks, ?_, hI.marks⟩
    · have hdone : psjf os W k = .done s := Outcome.run_done_of_le hs hk
      rw [hdone, Outcome.map_done]
    · exact (hI.finished_iff.mpr hC.finished).trans hI.tracks.length_eq

/-- Work left, as the counters show it. -/
theorem Inv.exec_eq_left (hI : Inv W σ k s) (hW : WellFormed W) {law : ChoiceLaw}
    (hB : Before W law σ k) (hi : i < W.length) :
    (entry s.proc i).exec = ((jobsOf W).left σ k i : ℕ) :=
  hI.tracks.exec_eq_left hW hi (hB.served_le i)

/-- Eligible processes, as the clock and the counters show them. -/
theorem Inv.eligible_iff (hI : Inv W σ k s) (hW : WellFormed W) {law : ChoiceLaw}
    (hB : Before W law σ k) (hi : i < W.length) : (jobsOf W).Eligible σ k i ↔
      (entry s.proc i).ready ≤ s.time ∧ 0 < (entry s.proc i).exec := by
  have hready := hI.tracks.ready_eq i hi
  have hrel := hW.release_eq hi
  have htime : s.time = k := hI.time
  have hexec := hI.exec_eq_left hW hB hi
  rw [Jobs.left] at hexec
  constructor
  · rintro ⟨-, hle, hlt⟩
    omega
  · rintro ⟨hle, hlt⟩
    exact ⟨mem_jobsOf.mpr hi, by omega, by omega⟩

/-- Every state a run goes on from satisfies the invariant. -/
theorem inv_of_next (hos : os.Healthy) (hW : WellFormed W) (hz : ZeroWaiting W)
    (hs : psjf os W k = .next s) :
    Inv W (followed os (start os W)) k s ∧
      Before W (srptLaw W) (followed os (start os W)) k := by
  obtain ⟨T, -, hnext, s', hs', -⟩ := run_spec hos hW hz
  rcases Nat.lt_or_ge T k with hlt | hle
  · have hdone : psjf os W k = .done s' := Outcome.run_done_of_le hs' hlt
    rw [hs] at hdone
    cases hdone
  · obtain ⟨s₁, h₁, hI, hB⟩ := hnext k hle
    rw [hs] at h₁
    cases h₁
    exact ⟨hI, hB⟩

/-- While a process is eligible the run goes on. -/
theorem next_of_eligible (hos : os.Healthy) (hW : WellFormed W) (hz : ZeroWaiting W)
    (hi : (jobsOf W).Eligible (followed os (start os W)) k i) : ∃ s, psjf os W k = .next s := by
  obtain ⟨T, hC, hnext, -⟩ := run_spec hos hW hz
  have hk : k ≤ T := by
    by_contra hlt
    exact not_eligible_of_finished hC.finished (by omega) i hi
  obtain ⟨s, hs, -⟩ := hnext k hk
  exact ⟨s, hs⟩

end Psjf
end ProcSched
