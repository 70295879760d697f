/-
  ProcSched.Refine.Loop

  The loop of FIFO.c, RR.c and SJF.c follows a schedule.  `Inv` relates the
  state at the top of iteration `k` to the units before `k`, `AtChoice` the
  state at the choice of the next process.  Given that the choice is an eligible
  process that a law allows (`Discipline.Obeys`), one iteration keeps the
  invariant or leaves the loop with all the work done (`step_spec`), and a whole
  run is described by its schedule (`describes`).
-/

import ProcSched.Refine.Run

namespace ProcSched
namespace Loop

variable {d : Discipline} {os : Os} {W : List Process} {law : ChoiceLaw} {σ : Schedule ℕ}
  {k : ℕ} {s : State}

/-- The state at the top of iteration `k`. -/
structure Inv (d : Discipline) (W : List Process) (σ : Schedule ℕ) (k : ℕ) (s : State) :
    Prop where
  now : s.now = k
  tracks : Tracks W σ k s.proc
  pid_none : ∀ i < W.length, k ≤ (jobsOf W).release i → (entry s.proc i).pid = -1
  pid_pos : ∀ i < W.length, (jobsOf W).release i < k → 0 < (entry s.proc i).pid
  running : s.running = σ.prev k
  finish : s.finish + ((jobsOf W).ended σ k).toList.length = (jobsOf W).completed σ k
  marks : s.log.marks ++ finishMarks k ((jobsOf W).ended σ k) = trace W σ 1 k
  last : d.last = State.now → s.last = σ.lastStart k

/-- The state in iteration `k` after the finish test, some work being left. -/
structure Tested (d : Discipline) (W : List Process) (σ : Schedule ℕ) (k : ℕ) (s : State) :
    Prop where
  now : s.now = k
  tracks : Tracks W σ k s.proc
  pid_none : ∀ i < W.length, k ≤ (jobsOf W).release i → (entry s.proc i).pid = -1
  pid_pos : ∀ i < W.length, (jobsOf W).release i < k → 0 < (entry s.proc i).pid
  running : s.running = (jobsOf W).current σ k
  finish : s.finish = (jobsOf W).completed σ k
  marks : s.log.marks = trace W σ 1 k
  last : d.last = State.now → s.last = σ.lastStart k

/-- The state in iteration `k` at the choice of the next process. -/
structure AtChoice (d : Discipline) (W : List Process) (σ : Schedule ℕ) (k : ℕ) (s : State) :
    Prop where
  now : s.now = k
  tracks : Tracks W σ k s.proc
  pid_none : ∀ i < W.length, k < (jobsOf W).release i → (entry s.proc i).pid = -1
  pid_pos : ∀ i < W.length, (jobsOf W).release i ≤ k → 0 < (entry s.proc i).pid
  running : s.running = (jobsOf W).current σ k
  finish : s.finish = (jobsOf W).completed σ k
  marks : s.log.marks = trace W σ 1 k ++ forkMarks W k
  last : d.last = State.now → s.last = σ.lastStart k
  served_le : ∀ i < W.length, σ.served k i ≤ (jobsOf W).length i
  carried : ∀ r, s.running = some r → (jobsOf W).Eligible σ k r

/-- The state in which the loop was left in iteration `k`. -/
structure Final (W : List Process) (σ : Schedule ℕ) (k : ℕ) (s : State) : Prop where
  now : s.now = k
  tracks : Tracks W σ k s.proc
  running : s.running = none
  finish : s.finish = W.length
  marks : s.log.marks = trace W σ 1 k

/-- What the choice of the next process has to be at time `k`. -/
structure Admits (W : List Process) (law : ChoiceLaw) (σ : Schedule ℕ) (k : ℕ)
    (o : Option ℕ) : Prop where
  idle : o = none → ∀ i, ¬ (jobsOf W).Eligible σ k i
  eligible : ∀ i, o = some i → (jobsOf W).Eligible σ k i
  law : law σ k o

/-- The discipline forks with fresh pids and chooses as the law says. -/
structure Discipline.Obeys (d : Discipline) (os : Os) (W : List Process) (law : ChoiceLaw) :
    Prop where
  spawns : ∀ now, Spawns now (fun pid p => { p with pid := pid }) (d.spawn os now)
  wakeup : ∀ s i, (d.wakeup os s i).marks = []
  next : ∀ σ k s, AtChoice d W σ k s → ∃ o, d.next s = some o ∧ Admits W law σ k o

/-- At the choice the test of the selection loops finds the eligible entries. -/
theorem AtChoice.runnable_iff (h : AtChoice d W σ k s) (hW : WellFormed W) {i : ℕ}
    (hi : i < W.length) : Runnable (entry s.proc i) ↔ (jobsOf W).Eligible σ k i := by
  have hexec := h.tracks.exec_ne_zero_iff hW hi (h.served_le i hi)
  constructor
  · rintro ⟨hpid, hne⟩
    refine ⟨mem_jobsOf.mpr hi, ?_, hexec.mp hne⟩
    by_contra hlt
    exact hpid (h.pid_none i hi (Nat.lt_of_not_le hlt))
  · intro hel
    have := h.pid_pos i hi hel.released
    exact ⟨by omega, hexec.mpr hel.unfinished⟩

/-- What holds of the entries that pass the test holds of the eligible ones. -/
theorem AtChoice.forall_eligible (h : AtChoice d W σ k s) (hW : WellFormed W) {P : ℕ → Prop}
    (hP : ∀ j < s.proc.length, Runnable (entry s.proc j) → P j) {j : ℕ}
    (hj : (jobsOf W).Eligible σ k j) : P j := by
  have hj' : j < W.length := mem_jobsOf.mp hj.mem
  exact hP j (by rw [h.tracks.length_eq]; exact hj') ((h.runnable_iff hW hj').mpr hj)

theorem AtChoice.eligible_of_runnable (h : AtChoice d W σ k s) (hW : WellFormed W) {i : ℕ}
    (hi : i < s.proc.length) (hrun : Runnable (entry s.proc i)) : (jobsOf W).Eligible σ k i := by
  rw [h.tracks.length_eq] at hi
  exact (h.runnable_iff hW hi).mp hrun

/-! ## One iteration -/

/-- The finish test counts the process of the previous unit if that was its last
    one, and leaves the loop exactly when all are finished. -/
theorem finishTest_spec (hW : WellFormed W) (hI : Inv d W σ k s) (hB : Before W law σ k) :
    (¬ (jobsOf W).Finished σ k ∧ ∃ s', d.finishTest s = .next s' ∧ Tested d W σ k s') ∨
      ((jobsOf W).Finished σ k ∧ ∃ s', d.finishTest s = .done s' ∧ Final W σ k s') := by
  have hcard : (jobsOf W).jobs.card = W.length := Finset.card_range _
  have hfinish := hI.finish
  have hmarks := hI.marks
  have hrunning := hI.running
  cases hend : (jobsOf W).ended σ k with
  | none =>
      -- nobody to count: the process of the previous unit, if any, is carried over
      have hprev := Jobs.ended_eq_none.mp hend
      simp only [hend, Option.toList_none, List.length_nil, Nat.add_zero, finishMarks,
        List.append_nil] at hfinish hmarks
      have hnot : ¬ (jobsOf W).Finished σ k := by
        intro hfin
        cases hp : σ.prev k with
        | none => exact hW.prev_ne_none hB.unfinished hfin hp
        | some r =>
            have hel := hB.eligible_current (hprev.symm.trans hp)
            have := hfin r hel.mem
            have := hel.unfinished
            omega
      refine Or.inl ⟨hnot, s, ?_, ?_⟩
      · rw [Discipline.finishTest]
        cases hr : s.running with
        | none => rfl
        | some r =>
            have hel := hB.eligible_current (hprev.symm.trans (hrunning.symm.trans hr))
            have hr' : r < W.length := mem_jobsOf.mp hel.mem
            have hexec := (hI.tracks.exec_ne_zero_iff hW hr' (hB.served_le r)).mpr hel.unfinished
            simp only [hexec, if_false]
      · exact ⟨hI.now, hI.tracks, hI.pid_none, hI.pid_pos, hrunning.trans hprev, hfinish, hmarks,
          hI.last⟩
  | some r =>
      obtain ⟨hprev, hle⟩ := Jobs.ended_eq_some.mp hend
      have hcur : (jobsOf W).current σ k = none := by
        rw [Jobs.current_eq_none]
        intro i hi
        rw [hprev, Option.some.injEq] at hi
        rw [← hi]
        exact hle
      have hr : r < W.length := by
        cases k with
        | zero => simp at hprev
        | succ t => exact mem_jobsOf.mp (hB.legal t (Nat.lt_succ_self t) r hprev).mem
      have hexec : (entry s.proc r).exec = 0 := by
        by_contra hne
        have := (hI.tracks.exec_ne_zero_iff hW hr (hB.served_le r)).mp hne
        omega
      simp only [hend, Option.toList_some, List.length_singleton, finishMarks] at hfinish hmarks
      have hlog : (s.log ++ [(s.now, Event.call (.waitpid (entry s.proc r).pid)),
          (s.now, Event.mark (.finish r))] : Log).marks = trace W σ 1 k := by
        rw [Log.marks_append, ← hmarks, hI.now]
        rfl
      have hlen : s.proc.length = W.length := hI.tracks.length_eq
      rw [Discipline.finishTest, hrunning, hprev]
      simp only [hexec, if_true, hfinish, hlen]
      by_cases hall : (jobsOf W).completed σ k = W.length
      · rw [if_pos hall]
        refine Or.inr ⟨Jobs.finished_iff_completed.mpr (hall.trans hcard.symm), _, rfl, ?_⟩
        exact ⟨hI.now, hI.tracks, rfl, hall, hlog⟩
      · rw [if_neg hall]
        refine Or.inl ⟨fun hfin => hall ((Jobs.finished_iff_completed.mp hfin).trans hcard), _,
          rfl, ?_⟩
        exact ⟨hI.now, hI.tracks, hI.pid_none, hI.pid_pos, hcur.symm, rfl, hlog, hI.last⟩

/-- The fork scan gives a pid to the processes whose ready time has come. -/
theorem forkReady_spec (hd : d.Obeys os W law) (hW : WellFormed W) (hT : Tested d W σ k s)
    (hB : Before W law σ k) : ∃ s', d.forkReady os s = .next s' ∧ AtChoice d W σ k s' := by
  obtain ⟨proc, new, pids, hscan, hspec⟩ := forkScan_spec (hd.spawns s.now) 0 s.proc s.log
  rw [hT.now] at hspec
  have hnew := fun i hi hr => hspec.forked hT.tracks hW (i := i) hi hr
  have hold := fun i hi hr => hspec.untouched hT.tracks hW (i := i) hi hr
  refine ⟨{ s with proc := proc, log := s.log ++ new }, by rw [Discipline.forkReady, hscan], ?_⟩
  refine ⟨hT.now, hspec.tracks hT.tracks hW fun _ _ => ⟨rfl, rfl, rfl⟩, fun i hi hlt => ?_,
    fun i hi hle => ?_, hT.running, hT.finish, ?_, hT.last, fun i _ => hB.served_le i,
    fun r hr => hB.eligible_current (hT.running.symm.trans hr)⟩
  · rw [hold i hi hlt.ne']
    exact hT.pid_none i hi hlt.le
  · by_cases hr : (jobsOf W).release i = k
    · rw [(hnew i hi hr).1]
      exact (hnew i hi hr).2.1
    · rw [hold i hi hr]
      exact hT.pid_pos i hi (lt_of_le_of_ne hle hr)
  · rw [Log.marks_append, hT.marks, hspec.marks_eq_forkMarks hT.tracks hW]

/-- The loop body up to the choice of the next process. -/
theorem arrive_spec (hd : d.Obeys os W law) (hW : WellFormed W) (hI : Inv d W σ k s)
    (hB : Before W law σ k) :
    (¬ (jobsOf W).Finished σ k ∧ ∃ s', d.arrive os s = .next s' ∧ AtChoice d W σ k s') ∨
      ((jobsOf W).Finished σ k ∧ ∃ s', d.arrive os s = .done s' ∧ Final W σ k s') := by
  rcases finishTest_spec hW hI hB with ⟨hnot, s₁, htest, hT⟩ | ⟨hfin, s₁, htest, hF⟩
  · obtain ⟨s₂, hfork, hC⟩ := forkReady_spec hd hW hT hB
    refine Or.inl ⟨hnot, s₂, ?_, hC⟩
    rw [Discipline.arrive, htest, Outcome.bind_next, hfork]
  · refine Or.inr ⟨hfin, s₁, ?_, hF⟩
    rw [Discipline.arrive, htest, Outcome.bind_done]

/-- The context switch makes the chosen process the running one. -/
theorem contextSwitch_spec (hd : d.Obeys os W law) (hC : AtChoice d W σ k s) :
    ∃ o s', d.contextSwitch os s = .next s' ∧ Admits W law σ k o ∧ s'.running = o ∧
      s'.proc = s.proc ∧ s'.now = s.now ∧ s'.finish = s.finish ∧
      s'.last = (if o ≠ none ∧ o ≠ σ.prev k then d.last s else s.last) ∧
      s'.log.marks ++ (o.toList.map fun i => (k, Mark.decrement i)) =
        s.log.marks ++ unitMarks k o (σ.prev k ≠ o) := by
  obtain ⟨o, hnext, hadm⟩ := hd.next σ k s hC
  cases o with
  | none =>
      -- nobody to run, so nobody was carried over
      have hrun : s.running = none := by
        cases hr : s.running with
        | none => rfl
        | some r => exact absurd (hC.carried r hr) (hadm.idle rfl r)
      exact ⟨none, s, by rw [Discipline.contextSwitch, hnext], hadm, hrun, rfl, rfl, rfl,
        by simp, by simp [unitMarks]⟩
  | some i =>
      have hel := hadm.eligible i rfl
      have hsame : s.running = some i ↔ σ.prev k = some i := by
        rw [hC.running, Jobs.current_eq_some]
        exact and_iff_left hel.unfinished
      by_cases hprev : σ.prev k = some i
      · have hrun := hsame.mpr hprev
        refine ⟨some i, { s with log := s.log ++ [(s.now, .mark (.select i))] }, ?_, hadm, hrun,
          rfl, rfl, rfl, ?_, ?_⟩
        · simp only [Discipline.contextSwitch, hnext, hrun, if_true]
        · simp [hprev]
        · simp [hprev, hC.now, unitMarks]
      · have hrun : ¬ s.running = some i := fun h => hprev (hsame.mp h)
        refine ⟨some i, { s with
          running := some i
          last := d.last s
          log := s.log ++ [(s.now, .mark (.select i))] ++ d.wakeup os s i ++
            [(s.now, .mark (.switch i))] }, ?_, hadm, rfl, rfl, rfl, rfl, ?_, ?_⟩
        · simp only [Discipline.contextSwitch, hnext, hrun, if_false]
        · rw [if_pos ⟨Option.some_ne_none i, fun he => hprev he.symm⟩]
        · simp [hprev, hC.now, hd.wakeup, unitMarks]

/-- The unit of time goes to the running process. -/
theorem unit_spec (s : State) :
    s.unit.running = s.running ∧ s.unit.now = s.now + 1 ∧ s.unit.finish = s.finish ∧
      s.unit.last = s.last ∧
      s.unit.log.marks = s.log.marks ++ (s.running.toList.map fun i => (s.now, Mark.decrement i)) ∧
      s.unit.proc = s.running.elim s.proc fun r =>
        s.proc.modify r fun p => { p with exec := p.exec - 1 } := by
  rw [State.unit]
  cases s.running with
  | none => simp
  | some r => simp

/-- One iteration keeps the invariant, or leaves the loop when all the work is
    done. -/
theorem step_spec (hd : d.Obeys os W law) (hW : WellFormed W) (hI : Inv d W σ k s)
    (hB : Before W law σ k) :
    (¬ (jobsOf W).Finished σ k ∧ ∃ s', d.step os s = .next s' ∧
      (σ k = s'.running → Inv d W σ (k + 1) s' ∧ Before W law σ (k + 1))) ∨
      ((jobsOf W).Finished σ k ∧ ∃ s', d.step os s = .done s' ∧ Final W σ k s') := by
  rcases arrive_spec hd hW hI hB with ⟨hnot, s₁, harr, hC⟩ | ⟨hfin, s₁, harr, hF⟩
  · obtain ⟨o, s₂, hswitch, hadm, hrun, hproc, hnow, hfinish, hlast, hmarks⟩ :=
      contextSwitch_spec hd hC
    obtain ⟨hrun', hnow', hfinish', hlast', hmarks', hproc'⟩ := unit_spec s₂
    refine Or.inl ⟨hnot, s₂.unit, ?_, fun hσ => ?_⟩
    · rw [Discipline.step, harr, Outcome.bind_next, hswitch, Outcome.bind_next]
    rw [hrun', hrun] at hσ
    subst hσ
    rw [hrun] at hmarks' hproc'
    rw [hproc] at hproc'
    refine ⟨?_, hB.succ hnot hadm.eligible hadm.idle hadm.law⟩
    have hpid : ∀ i < W.length, (entry s₂.unit.proc i).pid = (entry s₁.proc i).pid := by
      intro i hi
      rw [hproc']
      cases hσ : σ k with
      | none => rfl
      | some r =>
          rw [Option.elim_some, entry_modify (by rw [hC.tracks.length_eq]; exact hi)]
          split <;> rfl
    refine ⟨by rw [hnow', hnow, hC.now], ?_, ?_, ?_, hrun'.trans hrun, ?_, ?_, ?_⟩
    · rw [hproc']
      cases hσ : σ k with
      | none => exact hC.tracks.idle hσ
      | some r => exact hC.tracks.unit hσ
    · intro i hi hlt
      rw [hpid i hi]
      exact hC.pid_none i hi hlt
    · intro i hi hle
      rw [hpid i hi]
      exact hC.pid_pos i hi (Nat.lt_succ_iff.mp hle)
    · rw [hfinish', hfinish, hC.finish, Jobs.completed_succ hadm.eligible, Jobs.length_ended]
    · rw [hmarks', hnow, hC.now, hmarks, hC.marks, trace_succ]
      simp only [List.append_assoc]
    · intro htimed
      rw [hlast', hlast, Schedule.lastStart_succ, htimed, hC.last htimed]
      simp only [hC.now]
  · refine Or.inr ⟨hfin, s₁, ?_, hF⟩
    rw [Discipline.step, harr, Outcome.bind_done, Outcome.bind_done]

/-! ## Whole runs -/

/-- The process run in each unit of a run that goes on. -/
def followed (d : Discipline) (os : Os) (o : Outcome State) : Schedule ℕ := fun t =>
  match Outcome.run (d.step os) o (t + 1) with
  | .next s => s.running
  | _ => none

theorem entry_resetPids {i : ℕ} (hi : i < W.length) :
    entry (resetPids W) i = { entry W i with pid := -1 } := by
  rw [entry_eq_getElem (by rw [resetPids, List.length_map]; exact hi), entry_eq_getElem hi]
  simp [resetPids]

theorem inv_initial (hW : WellFormed W) {log : Log} (hlog : log.marks = []) :
    Inv d W σ 0 (State.initial W log) where
  now := rfl
  tracks := by
    refine Tracks.start σ (List.length_map _) fun i hi => ?_
    rw [State.initial, entry_resetPids hi]
    exact ⟨rfl, rfl, rfl⟩
  pid_none i hi _ := by rw [State.initial, entry_resetPids hi]
  pid_pos i _ hlt := absurd hlt (Nat.not_lt_zero _)
  running := rfl
  finish := hW.completed_zero.symm
  marks := by
    show log.marks ++ [] = []
    rw [hlog, List.append_nil]
  last _ := rfl

theorem run_spec (hd : d.Obeys os W law) (hW : WellFormed W) {log : Log} (hlog : log.marks = [])
    {o : Outcome State} (ho : o = .next (State.initial W log)) :
    ∃ T, Completes W law (followed d os o) T ∧
      (∀ k ≤ T, ∃ s, Outcome.run (d.step os) o k = .next s ∧ Inv d W (followed d os o) k s ∧
        Before W law (followed d os o) k) ∧
      ∃ s, Outcome.run (d.step os) o (T + 1) = .done s ∧ Final W (followed d os o) T s := by
  refine completes_of_step hW ⟨_, ho, inv_initial hW hlog⟩ (fun k s hs hI hB => ?_) fun k s hs => ?_
  · rcases step_spec hd hW hI hB with ⟨hnot, s', hstep, hnext⟩ | hdone
    · refine Or.inl ⟨hnot, s', hstep, hnext ?_⟩
      rw [followed, Outcome.run_succ_of_next hs, hstep]
    · exact Or.inr hdone
  · rw [followed, hs]

theorem Inv.shows (hI : Inv d W σ k s) : Shows W σ 1 k s.snapshot where
  clock := hI.now
  tracks := hI.tracks
  finished := hI.finish
  marks := hI.marks

theorem Final.closes (hF : Final W σ k s) : Closes W σ 1 k s.snapshot where
  clock := hF.now
  tracks := hF.tracks
  finished := hF.finish
  marks := hF.marks

/-- A run of the loop is described by the processes it runs. -/
theorem describes (hd : d.Obeys os W law) (hW : WellFormed W) {log : Log} (hlog : log.marks = [])
    {o : Outcome State} (ho : o = .next (State.initial W log)) :
    ∃ T, Describes (fun k => (Outcome.run (d.step os) o k).map State.snapshot) W law
      (followed d os o) 1 T := by
  obtain ⟨T, hC, hnext, s, hs, hF⟩ := run_spec hd hW hlog ho
  refine ⟨T, { hC with next := fun k hk => ?_, done := fun k hk => ?_ }⟩
  · obtain ⟨s, hs, hI, -⟩ := hnext k hk
    exact ⟨_, by rw [hs, Outcome.map_next], hI.shows⟩
  · exact ⟨_, by rw [Outcome.run_done_of_le hs hk, Outcome.map_done], hF.closes⟩

/-- Every state a run goes on from satisfies the invariant. -/
theorem inv_of_next (hd : d.Obeys os W law) (hW : WellFormed W) {log : Log} (hlog : log.marks = [])
    {o : Outcome State} (ho : o = .next (State.initial W log))
    (hs : Outcome.run (d.step os) o k = .next s) :
    Inv d W (followed d os o) k s ∧ Before W law (followed d os o) k := by
  obtain ⟨T, -, hnext, s', hs', -⟩ := run_spec hd hW hlog ho
  rcases Nat.lt_or_ge T k with hlt | hle
  · rw [Outcome.run_done_of_le hs' hlt] at hs
    cases hs
  · obtain ⟨s₁, h₁, hI, hB⟩ := hnext k hle
    rw [hs] at h₁
    cases h₁
    exact ⟨hI, hB⟩

end Loop
end ProcSched
