/-
  ProcSched.Props.InRange

  The table is accessed within its bounds, and only forked children are blocked
  or woken up, by SJF and PSJF.  FIFO and RR block `proc[running]` at every
  context switch, also when `running` is -1: the first dispatch of every run
  reads `proc[-1].pid` and passes it on.

  PSJF stays in its table whatever the `waiting` fields hold.  Only if they are 0
  are the pids it passes to `sched_setscheduler` itself those of its children.
-/

import ProcSched.Props.Priority
import ProcSched.Refine.Accesses
import ProcSched.Refine.Counts

namespace ProcSched

/-- Every `proc[k]` of every iteration is an entry of the table. -/
def Policy.InRange (P : Policy) (os : Os) (q : Qsort) (W : List Process) : Prop :=
  ∀ k, ∀ i ∈ P.accesses os q W k, 0 ≤ i ∧ i < W.length

/-- Every pid the loop passes to `proc_block` or `proc_wakeup` is that of a child it
    forked. -/
def Policy.BlocksForked (P : Policy) (os : Os) (q : Qsort) (W : List Process) : Prop :=
  ∀ k, ∀ pid ∈ (P.loopLog os q W k).blockedOrWoken, pid ∈ (P.run os q W k).state.log.forked

/-- Every pid the loop passes to `sched_setscheduler` is that of a child it forked. -/
def Policy.PidsForked (P : Policy) (os : Os) (q : Qsort) (W : List Process) : Prop :=
  ∀ k, ∀ pid ∈ (P.loopLog os q W k).scheduled, pid ∈ (P.run os q W k).state.log.forked

/-! ## The pids of the calls -/

theorem Policy.PidsForked.blocksForked {P : Policy} {os : Os} {q : Qsort} {W : List Process}
    (h : P.PidsForked os q W) : P.BlocksForked os q W :=
  fun k pid hpid => h k pid (Log.blockedOrWoken_subset _ hpid)

/-- Since `log₀` only children have been passed to `sched_setscheduler`. -/
def Owned (log₀ log : Log) : Prop :=
  ∃ new, log = log₀ ++ new ∧ ∀ pid ∈ new.scheduled, pid ∈ log.forked

namespace Owned

variable {log₀ log new : Log}

theorem refl (log : Log) : Owned log log := ⟨[], (List.append_nil log).symm, by simp⟩

theorem append (h : Owned log₀ log) (hnew : ∀ pid ∈ new.scheduled, pid ∈ (log ++ new).forked) :
    Owned log₀ (log ++ new) := by
  obtain ⟨old, rfl, hold⟩ := h
  refine ⟨old ++ new, List.append_assoc _ _ _, fun pid hpid => ?_⟩
  rw [Log.scheduled_append, List.mem_append] at hpid
  rcases hpid with hpid | hpid
  · rw [Log.forked_append]
    exact List.mem_append_left _ (hold pid hpid)
  · exact hnew pid hpid

/-- Calls that are not about the scheduling of anybody. -/
theorem quiet (h : Owned log₀ log) (hnew : new.scheduled = []) : Owned log₀ (log ++ new) :=
  h.append (by simp [hnew])

theorem drop (h : Owned log₀ log) :
    ∀ pid ∈ Log.scheduled (log.drop log₀.length), pid ∈ log.forked := by
  obtain ⟨new, rfl, hnew⟩ := h
  rw [List.drop_left]
  exact hnew

/-- A fork scan that blocks the children it forks. -/
theorem fork {os : Os} {now : ℕ} {f : Log → Process → Process} {policy : SchedPolicy} {prio : Int}
    {spawn : ℕ → Process → Log → Except Log (Process × Log)}
    (heq : ∀ i p log, spawn i p log = .ok (f log p,
      log ++ [(now, .call (.fork (os.fork log))), (now, .call (.setaffinity (os.fork log) 1)),
        (now, .call (.setscheduler (os.fork log) policy prio)), (now, .mark (.fork i))]))
    {proc proc' : List Process} (hscan : forkScan spawn now 0 proc log = .ok (proc', new))
    (h : Owned log₀ log) : Owned log₀ new := by
  refine forkScan_keeps (P := Owned log₀) (fun i p l p' l' hsp hl => ?_) hscan h
  rw [heq, Except.ok.injEq, Prod.mk.injEq] at hsp
  rw [← hsp.2]
  exact hl.append (by simp)

end Owned

/-- A scheduler that has only passed on children since its first iteration. -/
theorem Policy.pidsForked_of_owned {P : Policy} {os : Os} {q : Qsort} {W : List Process} (log : Log)
    (hzero : (P.run os q W 0).state.log = log) (h : ∀ k, Owned log (P.run os q W k).state.log) :
    P.PidsForked os q W := by
  intro k
  rw [Policy.loopLog, hzero]
  exact (h k).drop

/-! ## SJF -/

namespace Sjf

variable {os : Os} {q : Qsort} {W : List Process} (hos : os.Healthy)
include hos

/-- An iteration of SJF promotes one of its children at most. -/
theorem owned_step (hW : WellFormed W) {log log₀ : Log} (hlog : Loop.Bare log)
    (hstart : start os q W = .next (Loop.State.initial (q.sort cmp W) log)) {k : ℕ}
    {s : Loop.State} (hs : sjf os q W k = .next s) (h : Owned log₀ s.log) :
    Owned log₀ (discipline.step os s).state.log := by
  have hT : WellFormed (q.sort cmp W) := Policy.table_wellFormed (P := .sjf) (q := q) hW
  have hd := obeys hos hT
  obtain ⟨hI, hB⟩ := Loop.inv_of_next hd hT hlog.marks hstart hs
  have hchild := Loop.children_of_next hd (calls hos) hT hlog hstart k s hs
  have htested : Owned log₀ (discipline.finishTest s).state.log := by
    rcases Loop.finishTest_cases (d := discipline) s with ⟨htest, -⟩ | ⟨r, -, -, htest⟩
    · rw [htest]
      exact h
    · rw [htest]
      split <;> exact h.quiet (by simp)
  rcases Loop.step_spec hd hT hI hB with ⟨-, s', hstep, -⟩ | ⟨-, s', hstep, -⟩
  · obtain ⟨s₁, s₂, s₃, htest, hfork, hswitch, rfl⟩ := Loop.step_cases hstep
    have harr := Outcome.bind_eq_next.mpr ⟨s₁, htest, hfork⟩
    have hC := Loop.atChoice_of_arrive hd hT hlog.marks hstart hs harr
    have hchild₃ := hchild.beforeUnit hd (calls hos) hT hI hB harr hswitch
    rw [htest, Outcome.state_next] at htested
    have h₂ : Owned log₀ s₂.log := by
      obtain ⟨proc, log, hscan, rfl⟩ := Loop.forkReady_eq_next.mp hfork
      exact Owned.fork (fun i p log => spawn_eq hos _ i p log) hscan htested
    have h₃ : Owned log₀ s₃.log := by
      rcases Loop.contextSwitch_cases hswitch with ⟨-, rfl⟩ | ⟨i, -, -, rfl⟩ | ⟨i, hn, -, rfl⟩
      · exact h₂
      · exact h₂.quiet (by simp)
      · obtain ⟨o, hnext, hadm⟩ := hd.next _ k s₂ hC
        rw [hn, Option.some.injEq] at hnext
        have hel := hadm.eligible i hnext.symm
        -- the process switched to has arrived, so its pid is that of a child
        have hmem := (hchild₃.mem_iff _).mpr
          ⟨i, ⟨mem_jobsOf.mp hel.mem, Nat.lt_succ_of_le hel.released⟩, rfl⟩
        simp only [List.append_assoc] at hmem ⊢
        refine h₂.append fun pid hpid => ?_
        have hpid : pid = (entry s₂.proc i).pid := by
          simpa [discipline, schedSetscheduler] using hpid
        rw [hpid]
        exact hmem
    rw [hstep, Outcome.state_next, Loop.State.unit]
    cases s₃.running with
    | none => exact h₃
    | some r => exact h₃.quiet (by simp)
  · rw [hstep]
    rw [Loop.step_eq_done.mp hstep] at htested
    exact htested

theorem pidsForked (hW : WellFormed W) : Policy.sjf.PidsForked os q W := by
  obtain ⟨log, hlog, hstart⟩ := start_ok hos q W
  have howned : ∀ k, Owned log (sjf os q W k).state.log := by
    refine Outcome.run_state_invariant ?_ fun k s hs h => owned_step hos hW hlog hstart hs h
    rw [hstart]
    exact Owned.refl log
  have hrun : ∀ k, (Policy.sjf.run os q W k).state.log = (sjf os q W k).state.log := fun k => by
    rw [Policy.run, Outcome.state_map]
    rfl
  refine Policy.pidsForked_of_owned log ?_ fun k => ?_
  · rw [hrun, sjf, Outcome.run_zero, hstart]
    rfl
  · rw [hrun]
    exact howned k

theorem inRange (hW : WellFormed W) : Policy.sjf.InRange os q W := by
  intro k i hi
  have hT : WellFormed (q.sort cmp W) := Policy.table_wellFormed (P := .sjf) (q := q) hW
  obtain ⟨log, hlog, hstart⟩ := start_ok hos q W
  obtain ⟨s, hs, hi⟩ := Outcome.mem_whenNext.mp hi
  obtain ⟨hI, hB⟩ := Loop.inv_of_next (obeys hos hT) hT hlog.marks hstart hs
  have hwithin : Within (q.sort cmp W) i := by
    rcases Loop.accesses_cases (obeys hos hT) hT accesses_sound hI hB hi with
      h | ⟨s', next, -, -, -, hnext, -, hmem⟩
    · exact h
    · rw [List.mem_singleton.mp hmem]
      exact within_natCast hnext
  exact hwithin.of_length (q.length_sort _ _)

end Sjf

/-! ## FIFO and RR -/

/-- A file whose context switch reads `proc[running]` does not stay in its table. -/
theorem Loop.not_inRange {d : Discipline} {a : Accesses} {os : Os} {T : List Process}
    {law : ChoiceLaw} (ha : ∀ s next, indexValue s.running ∈ a.switch s next)
    (hd : d.Obeys os T law) (hT : WellFormed T) {log : Log} (hlog : log.marks = [])
    {o : Outcome State} (ho : o = .next (State.initial T log)) (n : ℕ) :
    ¬ ∀ k, ∀ i ∈ (Outcome.run (d.step os) o k).whenNext (d.accesses a os),
      0 ≤ i ∧ i < (n : Int) := by
  intro h
  obtain ⟨k, s, hs, hmem⟩ := exists_outside ha hd hT hlog ho
  have := h k (-1) (Outcome.mem_whenNext.mpr ⟨s, hs, hmem⟩)
  omega

section

variable {os : Os} {q : Qsort} {W : List Process} (hos : os.Healthy) (hW : WellFormed W)
include hos hW

/-- FIFO reads in front of the table. -/
theorem Fifo.not_inRange : ¬ Policy.fifo.InRange os q W := by
  have hT : WellFormed (q.sort compare W) := Policy.table_wellFormed (P := .fifo) (q := q) hW
  obtain ⟨log, hlog, hstart⟩ := start_ok hos q W
  exact Loop.not_inRange (fun s next => by simp [accesses])
    (obeys hos hT (Policy.table_sorted (P := .fifo) hW (by decide))) hT hlog.marks hstart W.length

theorem Rr.not_inRange : ¬ Policy.rr.InRange os q W := by
  have hT : WellFormed (q.sort rrCompare W) := Policy.table_wellFormed (P := .rr) (q := q) hW
  obtain ⟨log, hlog, hstart⟩ := start_ok hos q W
  exact Loop.not_inRange (fun s next => by simp [accesses]) (obeys hos hT) hT hlog.marks hstart
    W.length

end

/-! ## PSJF -/

namespace Psjf

variable {os : Os} {W : List Process}

/-- The index found is in the table, whatever is waiting. -/
theorem inRange {q : Qsort} : Policy.psjf.InRange os q W := by
  intro k i hi
  obtain ⟨s, hs, hi⟩ := Outcome.mem_whenNext.mp hi
  obtain ⟨-, hlen⟩ := tally_of_next k s hs
  rw [accesses] at hi
  split at hi
  · simp at hi
  · rcases List.mem_append.mp hi with hi | hi
    · exact (within_forkScan (Nat.zero_add _) hi).of_length hlen
    · obtain ⟨s₁, hfork, hi⟩ := Outcome.mem_whenNext.mp hi
      have hlen₁ := (tally_forkReady hfork).2.trans hlen
      rcases List.mem_append.mp hi with hi | hi
      · exact (within_ready hi).of_length hlen₁
      · split at hi
        · next hready =>
          rcases List.mem_append.mp hi with hi | hi
          · exact (within_allAccesses hi).of_length hlen₁
          · obtain ⟨j, hj, -⟩ := someProcessIsReady_iff.mp hready
            have hlt : findMinIndex s₁.proc < s₁.proc.length := findMinIndex_lt (by omega)
            rw [List.mem_singleton.mp hi]
            exact (within_natCast hlt).of_length hlen₁
        · simp at hi

section

variable (hos : os.Healthy)
include hos

/-- PSJF sets priorities under `SCHED_FIFO` only. -/
theorem step_blockedOrWoken {s : State} (h : s.log.blockedOrWoken = []) :
    (step os s).state.log.blockedOrWoken = [] := by
  rw [step]
  split
  · exact h
  · obtain ⟨proc, new, pids, hscan, -⟩ := forkScan_spec (spawns hos s.time) 0 s.proc s.log
    have hforked : Log.blockedOrWoken (s.log ++ new) = [] :=
      forkScan_keeps (P := fun log => log.blockedOrWoken = []) (fun i p log p' log' hsp hl => by
        rw [spawn_eq hos, Except.ok.injEq, Prod.mk.injEq] at hsp
        rw [← hsp.2]
        simp [hl]) hscan h
    have hdispatch : ∀ i (t : State), (dispatch i t).log.blockedOrWoken = t.log.blockedOrWoken := by
      intro i t
      rw [dispatch]
      split
      · split <;> simp [schedSetscheduler]
      · simp
    rw [forkReady, hscan, Outcome.bind_next, Outcome.state_next, State.tick_log, select]
    split
    · rw [update]
      split <;> simp [hdispatch, hforked]
    · exact hforked

theorem blocksForked {q : Qsort} : Policy.psjf.BlocksForked os q W := by
  have hnone : ∀ k, (psjf os W k).state.log.blockedOrWoken = [] := by
    refine Outcome.run_state_invariant (P := fun s : State => s.log.blockedOrWoken = []) ?_
      fun k s _ h => step_blockedOrWoken hos h
    rw [start, procAssignCpu_ok hos hos.getpid_pos (Nat.zero_le 128)]
    simp
  intro k pid hpid
  have hrun : (Policy.psjf.run os q W k).state.log = (psjf os W k).state.log := by
    rw [Policy.run, Outcome.state_map]
    rfl
  rw [Policy.loopLog, hrun] at hpid
  have hsub := (List.drop_sublist (Policy.psjf.run os q W 0).state.log.length
    (psjf os W k).state.log).filterMap _ |>.subset hpid
  rw [← Log.blockedOrWoken, hnone k] at hsub
  cases hsub

end

/-- The dispatch is about the selected child and the one of the previous unit. -/
theorem owned_dispatch {log₀ : Log} {s : State} {i : ℕ} (h : Owned log₀ s.log)
    (hi : (entry s.proc i).pid ∈ s.log.forked)
    (hpre : s.preRunning = -1 ∨ s.preRunning ∈ s.log.forked) :
    Owned log₀ (dispatch i s).log := by
  by_cases hsame : (entry s.proc i).pid = s.preRunning
  · simp only [dispatch, hsame, ne_eq, not_true_eq_false, if_false]
    exact h.quiet (by simp)
  -- the previous child, if there was one, is raised and the selected one blocked
  · by_cases hnone : s.preRunning = -1
    · rw [hnone] at hsame
      simp only [dispatch, hsame, hnone, schedSetscheduler, ne_eq, not_true_eq_false,
        not_false_eq_true, if_true, if_false, List.append_assoc]
      exact h.append (by simp [hi])
    · have hmem := hpre.resolve_left hnone
      simp only [dispatch, hsame, hnone, schedSetscheduler, ne_eq, not_false_eq_true, if_true,
        List.append_assoc]
      exact h.append (by simp [hi, hmem])

section

variable (hos : os.Healthy) (hW : WellFormed W) (hz : ZeroWaiting W)
include hos hW hz

/-- An iteration of PSJF passes on children it has forked. -/
theorem owned_step {log₀ : Log} {k : ℕ} {s : State} (hs : psjf os W k = .next s)
    (h : Owned log₀ s.log) : Owned log₀ (step os s).state.log := by
  obtain ⟨hI, hB⟩ := inv_of_next hos hW hz hs
  rcases step_spec hos hW hI hB with ⟨-, s₁, hfork, hC, hstep, -⟩ | ⟨-, hstep⟩
  · have h₁ : Owned log₀ s₁.log := by
      rw [forkReady] at hfork
      split at hfork
      · cases hfork
      · next proc log hscan =>
        rw [← Outcome.next.inj hfork]
        exact Owned.fork (fun i p log => spawn_eq hos _ i p log) hscan h
    rw [hstep, Outcome.state_next, State.tick_log, select]
    split
    · next hready =>
      have hel := (hC.choice_spec hW).2.1 _ (choice_eq_some.mpr ⟨hready, rfl⟩)
      have hdispatched : Owned log₀ (dispatch (findMinIndex s₁.proc) s₁).log := by
        refine owned_dispatch h₁ (hC.pid_mem _ (mem_jobsOf.mp hel.mem) hel.released) ?_
        rcases hC.pre with hpre | ⟨j, hj, hle, hpre, -⟩
        · exact Or.inl hpre
        · exact Or.inr (hpre ▸ hC.pid_mem j hj hle)
      rw [update]
      split
      · exact (hdispatched.quiet (by simp)).quiet (by simp)
      · exact hdispatched.quiet (by simp)
    · exact h₁
  · rw [hstep]
    exact h

theorem pidsForked {q : Qsort} : Policy.psjf.PidsForked os q W := by
  obtain ⟨s₀, hstart, -⟩ := start_ok hos W
  have howned : ∀ k, Owned s₀.log (psjf os W k).state.log := by
    refine Outcome.run_state_invariant (P := fun s : State => Owned s₀.log s.log) ?_
      fun k s hs h => owned_step hos hW hz hs h
    rw [hstart]
    exact Owned.refl _
  have hrun : ∀ k, (Policy.psjf.run os q W k).state.log = (psjf os W k).state.log := fun k => by
    rw [Policy.run, Outcome.state_map]
    rfl
  refine Policy.pidsForked_of_owned s₀.log ?_ fun k => ?_
  · rw [hrun, psjf, Outcome.run_zero, hstart]
    rfl
  · rw [hrun]
    exact howned k

end

end Psjf

/-- A scheduler stays within its table and its children exactly if it is SJF or PSJF. -/
theorem inRange_iff (P : Policy) (os : Os) (q : Qsort) (W : List Process) (hos : os.Healthy)
    (hW : WellFormed W) :
    ((P.InRange os q W ∧ P.BlocksForked os q W) ↔ P = .sjf ∨ P = .psjf) ∧
      (P.Fresh W → ((P.InRange os q W ∧ P.PidsForked os q W) ↔ P = .sjf ∨ P = .psjf)) := by
  cases P with
  | fifo => simp [Fifo.not_inRange hos hW]
  | rr => simp [Rr.not_inRange hos hW]
  | sjf =>
      have hpids := Sjf.pidsForked (q := q) hos hW
      simp [Sjf.inRange hos hW, hpids, hpids.blocksForked]
  | psjf =>
      refine ⟨by simp [Psjf.inRange, Psjf.blocksForked hos], fun hz => ?_⟩
      simp [Psjf.inRange, Psjf.pidsForked hos hW (hz rfl)]

/-- A process whose `waiting` field is 1 before it arrives. -/
def earlyWaiting : List Process := [⟨"P1", 5, 2, 1, 7⟩]

/-- PSJF then stays in its table, but sets the priority of the pid it finds there. -/
theorem inRange_iff_earlyWaiting :
    Policy.psjf.InRange Os.counting Qsort.insertion earlyWaiting ∧
      Policy.psjf.BlocksForked Os.counting Qsort.insertion earlyWaiting ∧
      ¬ Policy.psjf.PidsForked Os.counting Qsort.insertion earlyWaiting := by
  obtain ⟨hin, hblocks⟩ := (inRange_iff .psjf Os.counting Qsort.insertion earlyWaiting
    Os.counting_healthy (by decide)).1.mpr (Or.inr rfl)
  exact ⟨hin, hblocks, fun hpids => absurd (hpids 1 7 (by decide)) (by decide)⟩

/-- On the test of README.md FIFO reads `proc[-1]` in its first iteration. -/
theorem readme_outside :
    Os.counting.Healthy ∧ WellFormed readmeWorkload ∧
      -1 ∈ Policy.fifo.accesses Os.counting Qsort.insertion readmeWorkload 0 ∧
      ¬ Policy.fifo.InRange Os.counting Qsort.insertion readmeWorkload :=
  ⟨Os.counting_healthy, by decide, by decide,
    Fifo.not_inRange Os.counting_healthy (by decide)⟩

end ProcSched
