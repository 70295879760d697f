/-
  ProcSched.Props.Priority

  The real-time priorities PSJF sets.  A child is forked with
  `block.sched_priority` (10), gets it again whenever it is selected after
  another process, and gets `high.sched_priority` (90) when it is preempted.  So
  the selected process always stands at 10 and every other child at 10 or 90
  (`ranked_of_next`), and the selected process outranks the unfinished others
  only in runs in which there never are any: those of workloads whose processes,
  run from their ready times, do not overlap.
-/

import ProcSched.Refine.Policy

namespace ProcSched
namespace Psjf

variable {os : Os} {W : List Process} {σ : Schedule ℕ} {k : ℕ} {s s₁ : State}

/-- In every iteration that selects a process, the priority last set for it is
    after the dispatch above that of every other forked process with units left. -/
def SelectedOutranks (os : Os) (W : List Process) : Prop :=
  ∀ k s s₁, psjf os W k = .next s → s.finished ≠ s.proc.length → forkReady os s = .next s₁ →
    someProcessIsReady s₁.proc = true →
      ∀ j < W.length, j ≠ findMinIndex s₁.proc →
        (∃ c, (c, Mark.fork j) ∈ (dispatch (findMinIndex s₁.proc) s₁).log.marks) →
        0 < (entry (dispatch (findMinIndex s₁.proc) s₁).proc j).exec →
        ∃ a b,
          (dispatch (findMinIndex s₁.proc) s₁).log.priority
            (entry (dispatch (findMinIndex s₁.proc) s₁).proc (findMinIndex s₁.proc)).pid = some a ∧
          (dispatch (findMinIndex s₁.proc) s₁).log.priority
            (entry (dispatch (findMinIndex s₁.proc) s₁).proc j).pid = some b ∧
          b < a

/-- No two processes overlap if each is run from its ready time to its end. -/
def NoOverlap (W : List Process) : Prop :=
  ∀ i < W.length, ∀ j < W.length, i ≠ j →
    (entry W i).ready + (entry W i).exec ≤ (entry W j).ready ∨
      (entry W j).ready + (entry W j).exec ≤ (entry W i).ready

instance (W : List Process) : Decidable (NoOverlap W) :=
  inferInstanceAs (Decidable (∀ i < W.length, ∀ j < W.length, i ≠ j →
    (entry W i).ready + (entry W i).exec ≤ (entry W j).ready ∨
      (entry W j).ready + (entry W j).exec ≤ (entry W i).ready))

theorem noOverlap_iff (hW : WellFormed W) : NoOverlap W ↔
    ∀ i ∈ (jobsOf W).jobs, ∀ j ∈ (jobsOf W).jobs, i ≠ j →
      (jobsOf W).release i + (jobsOf W).length i ≤ (jobsOf W).release j ∨
        (jobsOf W).release j + (jobsOf W).length j ≤ (jobsOf W).release i := by
  have hcast : ∀ i < W.length, ∀ j < W.length,
      ((entry W i).ready + (entry W i).exec ≤ (entry W j).ready ↔
        (jobsOf W).release i + (jobsOf W).length i ≤ (jobsOf W).release j) := by
    intro i hi j hj
    rw [← hW.release_eq hi, ← hW.release_eq hj, ← hW.length_eq hi]
    omega
  constructor
  · intro h i hi j hj hij
    have hi' := mem_jobsOf.mp hi
    have hj' := mem_jobsOf.mp hj
    rw [← hcast i hi' j hj', ← hcast j hj' i hi']
    exact h i hi' j hj' hij
  · intro h i hi j hj hij
    rw [hcast i hi j hj, hcast j hj i hi]
    exact h i (mem_jobsOf.mpr hi) j (mem_jobsOf.mpr hj) hij

/-! ## Priorities along a run -/

/-- The forked children stand at 10 or 90, the one of the previous unit at 10. -/
structure Ranked (σ : Schedule ℕ) (k : ℕ) (forked : ℕ → Prop) (s : State) : Prop where
  rank : ∀ i, forked i → s.log.priority (entry s.proc i).pid = some blockPriority ∨
    s.log.priority (entry s.proc i).pid = some highPriority
  running : ∀ i, σ.prev k = some i → s.log.priority (entry s.proc i).pid = some blockPriority

/-- A fork leaves the priorities of the earlier children alone. -/
theorem spawn_keeps (hos : os.Healthy) {now : ℕ} {pid : Int} {v : Option Int} :
    ∀ i p log p' log', spawn os now i p log = .ok (p', log') →
      pid ∈ log.forked ∧ log.priority pid = v → pid ∈ log'.forked ∧ log'.priority pid = v := by
  rintro i p log p' log' hspawn ⟨hmem, hprio⟩
  rw [spawn_eq hos, Except.ok.injEq, Prod.mk.injEq] at hspawn
  have hne : os.fork log ≠ pid := fun he => hos.fork_fresh log (he ▸ hmem)
  rw [← hspawn.2]
  simp [hmem, hprio, hne]

/-- A new child starts at 10. -/
theorem spawn_ranks (hos : os.Healthy) {now : ℕ} :
    ∀ i p log p' log', spawn os now i p log = .ok (p', log') →
      p'.pid ∈ log'.forked ∧ log'.priority p'.pid = some blockPriority := by
  intro i p log p' log' hspawn
  rw [spawn_eq hos, Except.ok.injEq, Prod.mk.injEq] at hspawn
  rw [← hspawn.1, ← hspawn.2]
  simp

theorem Ranked.forkReady (hos : os.Healthy) (hW : WellFormed W) (hI : Inv W σ k s)
    {law : ChoiceLaw} (hB : Before W law σ k)
    (hR : Ranked σ k (fun i => i < W.length ∧ (jobsOf W).release i < k) s)
    (hs₁ : Psjf.forkReady os s = .next s₁) :
    Ranked σ k (fun i => i < W.length ∧ (jobsOf W).release i ≤ k) s₁ := by
  obtain ⟨proc, new, pids, hscan, hspec⟩ := forkScan_spec (spawns hos s.time) 0 s.proc s.log
  have hlen := hI.tracks.length_eq
  rw [Psjf.forkReady, hscan] at hs₁
  simp only [Outcome.next.injEq] at hs₁
  subst hs₁
  -- a child forked before keeps its pid and its priority
  have hold : ∀ i < W.length, (jobsOf W).release i < k →
      (s.log ++ new : Log).priority (entry proc i).pid
        = s.log.priority (entry s.proc i).pid := by
    intro i hi hlt
    have hne : (jobsOf W).release i ≠ s.time := by
      have := hI.time
      omega
    rw [hspec.untouched hI.tracks hW hi hne]
    exact (forkScan_keeps (spawn_keeps hos) hscan ⟨hI.pid_mem i hi hlt, rfl⟩).2
  constructor
  · rintro i ⟨hi, hle⟩
    rcases Nat.lt_or_eq_of_le hle with hlt | heq
    · rw [hold i hi hlt]
      exact hR.rank i ⟨hi, hlt⟩
    · have hnew := forkScan_each (Q := fun p log => p.pid ∈ log.forked ∧
        log.priority p.pid = some blockPriority) (spawn_ranks hos)
        (fun i p log p' log' x hs h => spawn_keeps hos i p log p' log' hs h) hscan i (by omega)
        ((hI.tracks.ready_iff hW hi _).mpr (heq.trans hI.time.symm))
      exact Or.inl hnew.2
  · intro i hprev
    obtain ⟨hi, hlt⟩ := hB.prev_released hprev
    rw [hold i hi hlt]
    exact hR.running i hprev

/-- The dispatch puts the selected process at 10 and a preempted one at 90. -/
theorem dispatch_priority (sel : ℕ) (s : State) (pid : Int) :
    (dispatch sel s).log.priority pid =
      if (entry s.proc sel).pid = s.preRunning then s.log.priority pid
      else if pid = (entry s.proc sel).pid then some blockPriority
      else if pid = s.preRunning ∧ s.preRunning ≠ -1 then some highPriority
      else s.log.priority pid := by
  by_cases hsame : (entry s.proc sel).pid = s.preRunning
  · simp [dispatch, hsame]
  · by_cases hnone : s.preRunning = -1
    · rw [hnone] at hsame
      simp [dispatch, hsame, hnone, schedSetscheduler, eq_comm]
    · simp [dispatch, hsame, hnone, schedSetscheduler, eq_comm]

/-- The dispatch of the process that `σ` runs keeps the ranks and puts it at 10. -/
theorem Ranked.dispatch {sel : ℕ} (hC : AtChoice W σ k s)
    (hR : Ranked σ k (fun i => i < W.length ∧ (jobsOf W).release i ≤ k) s)
    (hel : (jobsOf W).Eligible σ k sel) :
    (∀ i, i < W.length ∧ (jobsOf W).release i ≤ k →
      (dispatch sel s).log.priority (entry s.proc i).pid = some blockPriority ∨
        (dispatch sel s).log.priority (entry s.proc i).pid = some highPriority) ∧
      (dispatch sel s).log.priority (entry s.proc sel).pid = some blockPriority := by
  simp only [dispatch_priority]
  constructor
  · intro i hi
    have := hR.rank i hi
    split
    · exact this
    · split
      · exact Or.inl rfl
      · split
        · exact Or.inr rfl
        · exact this
  · by_cases hprev : σ.prev k = some sel
    · rw [if_pos (hC.pre_prev sel hprev).symm]
      exact hR.running sel hprev
    · rw [if_neg ((hC.running_ne_iff hel).mpr hprev), if_pos trivial]

theorem update_priority (sel : ℕ) (s : State) (pid : Int) :
    (update sel s).log.priority pid = s.log.priority pid := by
  rw [update]
  split <;> simp

/-- At the top of every iteration the children are ranked. -/
theorem ranked_of_next (hos : os.Healthy) (hW : WellFormed W) (hz : ZeroWaiting W) :
    ∀ k s, psjf os W k = .next s → Ranked (followed os (start os W)) k
      (fun i => i < W.length ∧ (jobsOf W).release i < k) s := by
  refine Outcome.run_invariant (fun s _ => ⟨fun i hi => absurd hi.2 (Nat.not_lt_zero _),
    fun i hi => absurd hi (Option.some_ne_none i).symm⟩) fun k s s' hs _ hstep hR => ?_
  obtain ⟨hI, hB⟩ := inv_of_next hos hW hz hs
  rcases step_spec hos hW hI hB with ⟨hnot, s₁, hfork, hC, hnext, -⟩ | ⟨-, hdone⟩
  · have hR₁ := hR.forkReady hos hW hI hB hfork
    have hσ := followed_of_next hs (fun h => hnot (hI.finished_iff.mp h)) hfork
    obtain ⟨-, hsome, -⟩ := hC.choice_spec hW
    rw [hstep, Outcome.next.injEq] at hnext
    subst hnext
    have hlen := hC.tracks.length_eq
    cases hch : choice s₁ with
    | none =>
        have hready : ¬ someProcessIsReady s₁.proc = true := fun hr => by
          rw [choice, if_pos hr] at hch
          exact absurd hch (Option.some_ne_none _)
        rw [select, if_neg hready]
        refine ⟨fun i hi => hR₁.rank i ⟨hi.1, Nat.lt_succ_iff.mp hi.2⟩, fun i hi => ?_⟩
        rw [Schedule.prev_succ, hσ, hch] at hi
        exact absurd hi (Option.some_ne_none i).symm
    | some sel =>
        have hel := hsome sel hch
        obtain ⟨hrank, hten⟩ := hR₁.dispatch hC hel
        obtain ⟨hready, hmin⟩ := choice_eq_some.mp hch
        have hproc := (dispatch_spec sel s₁).1
        have hpid : ∀ i < W.length, (entry (update sel (dispatch sel s₁)).proc i).pid
            = (entry s₁.proc i).pid := by
          intro i hi
          obtain ⟨hentry, -⟩ := update_spec (i := sel) (s := dispatch sel s₁) (by
            rw [hproc, hlen]
            exact mem_jobsOf.mp hel.mem)
          rw [hentry i (by rw [hproc]; omega), hproc]
          split
          · next h => rw [h]
          · rfl
        rw [select, if_pos hready, hmin]
        constructor
        · rintro i ⟨hi, hlt⟩
          rw [State.tick_log, State.tick_proc, update_priority, hpid i hi]
          exact hrank i ⟨hi, Nat.lt_succ_iff.mp hlt⟩
        · intro i hi
          rw [Schedule.prev_succ, hσ, hch, Option.some.injEq] at hi
          subst hi
          rw [State.tick_log, State.tick_proc, update_priority, hpid sel (mem_jobsOf.mp hel.mem)]
          exact hten
  · rw [hstep] at hdone
    cases hdone

/-! ## The selected process against the others -/

section Outranks

variable (hos : os.Healthy) (hW : WellFormed W) (hz : ZeroWaiting W)
include hos hW hz

/-- The two-process form of contention, along the run. -/
theorem eligible_unique_iff_noOverlap :
    (∀ t i j, (jobsOf W).Eligible (followed os (start os W)) t i →
      (jobsOf W).Eligible (followed os (start os W)) t j → i = j) ↔ NoOverlap W := by
  obtain ⟨T, hC, -⟩ := run_spec hos hW hz
  rw [noOverlap_iff hW]
  exact Jobs.eligible_unique_iff hC.legal hC.busy hW.mem_length_pos

/-- Without overlap nobody else is left when a process is selected. -/
theorem outranks_of_noOverlap (h : NoOverlap W) : SelectedOutranks os W := by
  intro k s s₁ hs hfin hfork hready j hj hne hforked hexec
  obtain ⟨hI, hB⟩ := inv_of_next hos hW hz hs
  rcases step_spec hos hW hI hB with ⟨-, s₂, hfork', hC, -, -⟩ | ⟨hdone, -⟩
  · rw [hfork, Outcome.next.injEq] at hfork'
    subst hfork'
    obtain ⟨-, hsome, -⟩ := hC.choice_spec hW
    have hel := hsome _ (choice_eq_some.mpr ⟨hready, rfl⟩)
    obtain ⟨hproc, -, -, -, -, -, hmarks⟩ := dispatch_spec (findMinIndex s₁.proc) s₁
    rw [hproc] at hexec
    obtain ⟨c, hc⟩ := hforked
    have hreleased : (jobsOf W).release j ≤ k := by
      rw [hmarks, hC.marks, List.mem_append, List.mem_append] at hc
      rcases hc with (hc | hc) | hc
      · obtain ⟨hlt, -, heq⟩ := fork_mem_trace.mp hc
        omega
      · obtain ⟨-, i, hi, -, heq⟩ := mem_forkMarks.mp hc
        rw [Mark.fork.injEq] at hi
        rw [hi]
        exact heq.le
      · split at hc <;> simp at hc
    have helj : (jobsOf W).Eligible (followed os (start os W)) k j :=
      ⟨mem_jobsOf.mpr hj, hreleased, (hC.tracks.exec_ne_zero_iff hW hj (hC.served_le j hj)).mp
        (by omega)⟩
    exact absurd ((eligible_unique_iff_noOverlap hos hW hz).mpr h k _ _ helj hel) hne
  · exact absurd (hI.finished_iff.mpr hdone) hfin

/-- Where two processes are unfinished together, the selected one is at 10 and
    the other one not below. -/
theorem noOverlap_of_outranks (h : SelectedOutranks os W) : NoOverlap W := by
  rw [← eligible_unique_iff_noOverlap hos hW hz]
  by_contra hcontested
  push Not at hcontested
  obtain ⟨t, i, j, hi, hj, hij⟩ := hcontested
  obtain ⟨T, hC, hnext, -⟩ := run_spec hos hW hz
  have ht : t ≤ T := by
    by_contra hlt
    exact not_eligible_of_finished hC.finished (by omega) i hi
  obtain ⟨s, hs, hI, hB⟩ := hnext t ht
  rcases step_spec hos hW hI hB with ⟨hnot, s₁, hfork, hC₁, -, -⟩ | ⟨hdone, -⟩
  · have hfin : s.finished ≠ s.proc.length := fun he => hnot (hI.finished_iff.mp he)
    have hlen := hC₁.tracks.length_eq
    obtain ⟨hnone, hsome, -⟩ := hC₁.choice_spec hW
    cases hch : choice s₁ with
    | none => exact hnone hch i hi
    | some sel =>
        obtain ⟨hready, hmin⟩ := choice_eq_some.mp hch
        have hel := hsome sel hch
        -- one of the two is not the selected one
        obtain ⟨x, hx, hxsel⟩ : ∃ x, (jobsOf W).Eligible (followed os (start os W)) t x ∧
            x ≠ sel := by
          by_cases his : i = sel
          · exact ⟨j, hj, fun hjs => hij (his.trans hjs.symm)⟩
          · exact ⟨i, hi, his⟩
        have hx' := mem_jobsOf.mp hx.mem
        obtain ⟨hproc, -, -, -, -, -, hmarks⟩ := dispatch_spec sel s₁
        obtain ⟨hrank, hten⟩ := ((ranked_of_next hos hW hz t s hs).forkReady hos hW hI hB
          hfork).dispatch hC₁ hel
        have hexec : 0 < (entry s₁.proc x).exec := by
          rw [hC₁.tracks.exec_eq_left hW hx' (hC₁.served_le x hx'), Jobs.left]
          have := hx.unfinished
          omega
        have hforked : ((jobsOf W).release x, Mark.fork x) ∈ (dispatch sel s₁).log.marks := by
          rw [hmarks, hC₁.marks, List.mem_append, List.mem_append]
          apply Or.inl
          rcases Nat.lt_or_eq_of_le hx.released with hlt | heq
          · exact Or.inl (fork_mem_trace.mpr ⟨hlt, hx', rfl⟩)
          · exact Or.inr (mem_forkMarks.mpr ⟨heq, x, rfl, hx', heq⟩)
        have hout := h t s s₁ hs hfin hfork hready x hx'
        rw [hmin, hproc] at hout
        obtain ⟨a, b, ha, hb, hlt⟩ := hout hxsel ⟨_, hforked⟩ hexec
        rw [hten, Option.some.injEq] at ha
        have hb' := hrank x ⟨hx', hx.released⟩
        rw [hb, Option.some.injEq, Option.some.injEq] at hb'
        simp only [blockPriority, highPriority] at ha hb'
        omega
  · exact not_eligible_of_finished hdone (Nat.le_refl t) i hi

end Outranks

/-- PSJF gives the process it selects the highest priority exactly on workloads
    without overlap, where there is nobody to compete with. -/
theorem outranks_iff_noOverlap (os : Os) (W : List Process) (hos : os.Healthy)
    (hW : WellFormed W) (hz : ZeroWaiting W) : SelectedOutranks os W ↔ NoOverlap W :=
  ⟨noOverlap_of_outranks hos hW hz, outranks_of_noOverlap hos hW hz⟩

theorem outranks_iff_noOverlap_readme :
    SelectedOutranks Os.counting readmeWorkload ↔ NoOverlap readmeWorkload :=
  outranks_iff_noOverlap Os.counting readmeWorkload Os.counting_healthy (by decide) (by decide)

/-- On the test of README.md P2 is selected at clock 500 with priority 10, while
    P1, preempted with 1500 units left, stands at 90. -/
theorem readme_not_outranks :
    Os.counting.Healthy ∧ WellFormed readmeWorkload ∧ ZeroWaiting readmeWorkload ∧
      ¬ SelectedOutranks Os.counting readmeWorkload :=
  ⟨Os.counting_healthy, by decide, by decide, fun h => absurd
    (noOverlap_of_outranks Os.counting_healthy (by decide) (by decide) h) (by decide)⟩

end Psjf
end ProcSched
