/-
  ProcSched.Refine.Phases

  The phases of one iteration.  For any table and any system, what each phase
  can do to the state (`finishTest_reap`, `forkReady_eq_next`,
  `contextSwitch_cases`, `step_cases`); for a run on a well-formed workload, the
  states it reaches in the middle of an iteration.
-/

import ProcSched.Refine.Policy

namespace ProcSched
namespace Loop

variable {d : Discipline} {os : Os} {W : List Process} {law : ChoiceLaw} {k : ℕ}
  {o : Outcome State} {s s' s'' : State}

/-! ## What a phase can do -/

/-- The state after the finish test has counted `proc[r]`. -/
def Discipline.reap (d : Discipline) (s : State) (r : ℕ) : State :=
  { s with
    running := none
    finish := s.finish + 1
    wait := d.wait s r
    log := s.log ++ [(s.now, .call (.waitpid (entry s.proc r).pid)), (s.now, .mark (.finish r))] }

@[simp] theorem reap_proc (d : Discipline) (s : State) (r : ℕ) : (d.reap s r).proc = s.proc := rfl

@[simp] theorem reap_running (d : Discipline) (s : State) (r : ℕ) :
    (d.reap s r).running = none := rfl

@[simp] theorem reap_now (d : Discipline) (s : State) (r : ℕ) : (d.reap s r).now = s.now := rfl

@[simp] theorem reap_finish (d : Discipline) (s : State) (r : ℕ) :
    (d.reap s r).finish = s.finish + 1 := rfl

@[simp] theorem reap_log (d : Discipline) (s : State) (r : ℕ) : (d.reap s r).log =
    s.log ++ [(s.now, .call (.waitpid (entry s.proc r).pid)), (s.now, .mark (.finish r))] := rfl

/-- The finish test lets an unfinished process go on. -/
theorem finishTest_keep (h : ∀ r, s.running = some r → (entry s.proc r).exec ≠ 0) :
    d.finishTest s = .next s := by
  rw [Discipline.finishTest]
  cases hr : s.running with
  | none => rfl
  | some r => simp only [h r hr, if_false]

/-- It counts a finished one, and leaves the loop with the last one. -/
theorem finishTest_reap {r : ℕ} (hr : s.running = some r) (hexec : (entry s.proc r).exec = 0) :
    d.finishTest s =
      if s.finish + 1 = s.proc.length then .done (d.reap s r) else .next (d.reap s r) := by
  simp only [Discipline.finishTest, hr, hexec, if_true]
  rfl

theorem finishTest_cases (s : State) :
    (d.finishTest s = .next s ∧ ∀ r, s.running = some r → (entry s.proc r).exec ≠ 0) ∨
      ∃ r, s.running = some r ∧ (entry s.proc r).exec = 0 ∧ d.finishTest s =
        if s.finish + 1 = s.proc.length then .done (d.reap s r) else .next (d.reap s r) := by
  by_cases h : ∀ r, s.running = some r → (entry s.proc r).exec ≠ 0
  · exact Or.inl ⟨finishTest_keep h, h⟩
  · push Not at h
    obtain ⟨r, hr, hexec⟩ := h
    exact Or.inr ⟨r, hr, hexec, finishTest_reap hr hexec⟩

/-- Where it goes on, the state is the same or the running process is counted. -/
theorem finishTest_next_cases (h : d.finishTest s = .next s') :
    s' = s ∧ (∀ r, s.running = some r → (entry s.proc r).exec ≠ 0) ∨
      ∃ r, s.running = some r ∧ (entry s.proc r).exec = 0 ∧ s' = d.reap s r := by
  rcases finishTest_cases (d := d) s with ⟨htest, hkeep⟩ | ⟨r, hr, hexec, htest⟩
  · rw [h, Outcome.next.injEq] at htest
    exact Or.inl ⟨htest, hkeep⟩
  · rw [h] at htest
    split at htest
    · cases htest
    · exact Or.inr ⟨r, hr, hexec, Outcome.next.inj htest⟩

theorem forkReady_eq_next : d.forkReady os s = .next s' ↔
    ∃ proc log, forkScan (d.spawn os s.now) s.now 0 s.proc s.log = .ok (proc, log) ∧
      s' = { s with proc := proc, log := log } := by
  rw [Discipline.forkReady]
  cases hscan : forkScan (d.spawn os s.now) s.now 0 s.proc s.log with
  | error log => simp
  | ok x =>
      rw [Outcome.next.injEq]
      refine ⟨fun h => ⟨x.1, x.2, rfl, h.symm⟩, ?_⟩
      rintro ⟨proc, log, hx, rfl⟩
      rw [Except.ok.inj hx]

/-- The context switch changes nothing, selects the running process, or puts
    another one in its place. -/
theorem contextSwitch_cases (h : d.contextSwitch os s = .next s') :
    (d.next s = some none ∧ s' = s) ∨
      (∃ i, d.next s = some (some i) ∧ s.running = some i ∧
        s' = { s with log := s.log ++ [(s.now, .mark (.select i))] }) ∨
      ∃ i, d.next s = some (some i) ∧ s.running ≠ some i ∧ s' = { s with
        running := some i
        last := d.last s
        log := s.log ++ [(s.now, .mark (.select i))] ++ d.wakeup os s i ++
          [(s.now, .mark (.switch i))] } := by
  rw [Discipline.contextSwitch] at h
  split at h
  · cases h
  · next hn => exact Or.inl ⟨hn, (Outcome.next.inj h).symm⟩
  · next i hn =>
    by_cases hr : s.running = some i
    · simp only [hr, if_true] at h
      refine Or.inr (Or.inl ⟨i, hn, hr, ?_⟩)
      rw [← Outcome.next.inj h, hr]
    · simp only [hr, if_false] at h
      exact Or.inr (Or.inr ⟨i, hn, hr, (Outcome.next.inj h).symm⟩)

/-- An iteration that goes on passes through all phases. -/
theorem step_cases (h : d.step os s = .next s'') : ∃ s₁ s₂ s₃, d.finishTest s = .next s₁ ∧
    d.forkReady os s₁ = .next s₂ ∧ d.contextSwitch os s₂ = .next s₃ ∧ s'' = s₃.unit := by
  obtain ⟨s₃, h₃, hunit⟩ := Outcome.bind_eq_next.mp h
  obtain ⟨s₂, h₂, hswitch⟩ := Outcome.bind_eq_next.mp h₃
  obtain ⟨s₁, h₁, hfork⟩ := Outcome.bind_eq_next.mp h₂
  exact ⟨s₁, s₂, s₃, h₁, hfork, hswitch, (Outcome.next.inj hunit).symm⟩

/-- The loop is left in the finish test only. -/
theorem step_eq_done : d.step os s = .done s' ↔ d.finishTest s = .done s' := by
  constructor
  · intro h
    rw [Discipline.step, Discipline.arrive] at h
    cases htest : d.finishTest s with
    | next s₁ =>
        rw [htest, Outcome.bind_next, Discipline.forkReady] at h
        split at h
        · cases h
        · rw [Outcome.bind_next, Discipline.contextSwitch] at h
          split at h
          · cases h
          · cases h
          · split at h <;> cases h
    | done s₁ =>
        rw [htest] at h
        exact h
    | exit s₁ =>
        rw [htest] at h
        cases h
    | hang s₁ =>
        rw [htest] at h
        cases h
  · intro h
    rw [Discipline.step, Discipline.arrive, h]
    rfl

/-! ## States in the middle of an iteration -/

/-- The unit of time goes to the process that runs after the context switch. -/
theorem followed_eq (hs : Outcome.run (d.step os) o k = .next s) (harr : d.arrive os s = .next s')
    (hswitch : d.contextSwitch os s' = .next s'') : followed d os o k = s''.running := by
  rw [followed, Outcome.run_succ_of_next hs, Discipline.step, harr, Outcome.bind_next, hswitch,
    Outcome.bind_next]
  exact (unit_spec s'').1

/-- An iteration that gets as far as the choice does so in the described state. -/
theorem atChoice_of_arrive (hd : d.Obeys os W law) (hW : WellFormed W) {log : Log}
    (hlog : log.marks = []) (ho : o = .next (State.initial W log))
    (hs : Outcome.run (d.step os) o k = .next s) (harr : d.arrive os s = .next s') :
    AtChoice d W (followed d os o) k s' := by
  obtain ⟨hI, hB⟩ := inv_of_next hd hW hlog ho hs
  rcases arrive_spec hd hW hI hB with ⟨-, s₁, harr₁, hC⟩ | ⟨-, s₁, harr₁, -⟩
  · rw [harr] at harr₁
    cases harr₁
    exact hC
  · rw [harr] at harr₁
    cases harr₁

end Loop

namespace Policy

theorem ran_fifo {os : Os} {q : Qsort} {W : List Process} (hos : os.Healthy) (hW : WellFormed W) :
    fifo.ran os q W = Loop.followed Fifo.discipline os (Fifo.start os q W) := by
  have hT := table_wellFormed (P := .fifo) (q := q) hW
  obtain ⟨log, hlog, hstart⟩ := Fifo.start_ok hos q W
  have hd := Fifo.obeys hos hT (table_sorted hW (by decide))
  obtain ⟨T, h⟩ := Loop.describes hd hT hlog.marks hstart
  exact funext h.decremented

end Policy
end ProcSched
