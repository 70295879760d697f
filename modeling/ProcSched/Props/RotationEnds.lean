/-
  ProcSched.Props.RotationEnds

  The `while` of `RR_next` has no counter: it ends because the running process is
  itself forked and unfinished whenever `RR_next` is called.  That is an
  invariant of the loop of `RR_main`, for any table and any kernel: an entry with
  a pid has been ready before the current clock, so the fork scan of this clock
  leaves the running entry alone, and the finish test has just found it
  unfinished.
-/

import ProcSched.Refine.Calls
import ProcSched.Refine.Counts
import ProcSched.Refine.Policy

namespace ProcSched
namespace Loop

variable {d : Discipline} {os : Os} {s s' s'' : State} {k : ℕ}

/-- What holds at the top of every iteration, failed forks and degenerate
    processes included. -/
structure Underway (s : State) : Prop where
  /-- an entry with a pid was forked at an earlier clock -/
  early : ∀ i < s.proc.length, (entry s.proc i).pid ≠ -1 → (entry s.proc i).ready < s.now
  running : ∀ r, s.running = some r → r < s.proc.length ∧ (entry s.proc r).pid ≠ -1

/-- The same between the fork scan and the choice of the next process: the
    running one is unfinished. -/
structure Choosing (s : State) : Prop where
  early : ∀ i < s.proc.length, (entry s.proc i).pid ≠ -1 → (entry s.proc i).ready ≤ s.now
  running : ∀ r, s.running = some r → r < s.proc.length ∧ Runnable (entry s.proc r)

theorem underway_initial (W : List Process) (log : Log) : Underway (State.initial W log) where
  early i hi hne := by
    have hi' : i < W.length := by rwa [State.initial, resetPids, List.length_map] at hi
    rw [State.initial, entry_resetPids hi'] at hne
    exact absurd rfl hne
  running r hr := by cases hr

theorem Underway.finishTest (h : Underway s) (htest : d.finishTest s = .next s') :
    Underway s' ∧ ∀ r, s'.running = some r → (entry s'.proc r).exec ≠ 0 := by
  rcases finishTest_next_cases htest with ⟨rfl, hkeep⟩ | ⟨r, -, -, rfl⟩
  · exact ⟨h, hkeep⟩
  · exact ⟨⟨h.early, fun r hr => by cases hr⟩, fun r hr => by cases hr⟩

theorem Underway.forkReady (hf : d.Forks os) (h : Underway s)
    (hexec : ∀ r, s.running = some r → (entry s.proc r).exec ≠ 0)
    (hfork : d.forkReady os s = .next s') : Choosing s' := by
  obtain ⟨hlen, hentry, hrun, -, hnow⟩ := forkReady_pids hf hfork
  constructor
  · intro i hi hne
    obtain ⟨pid, heq, hpid⟩ := hentry i (by omega)
    rw [heq, hnow]
    by_cases hready : (entry s.proc i).ready = s.now
    · exact Int.le_of_eq hready
    · rw [heq, hpid hready] at hne
      exact Int.le_of_lt (h.early i (by omega) hne)
  · intro r hr
    rw [hrun] at hr
    obtain ⟨hlt, hpid⟩ := h.running r hr
    -- it was ready before this clock, so it is not forked again
    have hready := h.early r hlt hpid
    obtain ⟨pid, heq, hkeep⟩ := hentry r hlt
    rw [hkeep (by omega)] at heq
    rw [hlen, heq]
    exact ⟨hlt, hpid, hexec r hr⟩

theorem Underway.arrive (hf : d.Forks os) (h : Underway s) (harr : d.arrive os s = .next s') :
    Choosing s' := by
  obtain ⟨s₁, htest, hfork⟩ := Outcome.bind_eq_next.mp harr
  obtain ⟨h₁, hexec⟩ := h.finishTest htest
  exact h₁.forkReady hf hexec hfork

theorem Choosing.contextSwitch (hp : d.Picks) (h : Choosing s)
    (hs : d.contextSwitch os s = .next s') : Choosing s' := by
  rcases contextSwitch_cases hs with ⟨-, rfl⟩ | ⟨i, -, -, rfl⟩ | ⟨i, hnext, hne, rfl⟩
  · exact h
  · exact ⟨h.early, h.running⟩
  · refine ⟨h.early, fun r hr => ?_⟩
    rw [← Option.some.inj hr]
    have hok := hp s i hnext hne
    exact ⟨lt_length_of_exec hok.2, hok⟩

theorem Choosing.unit (h : Choosing s) : Underway s.unit := by
  have hpid := unit_pid s
  obtain ⟨hrun, hnow, -, -, -, hproc⟩ := unit_spec s
  have hlen : s.unit.proc.length = s.proc.length := by
    rw [hproc]
    cases s.running with
    | none => rfl
    | some r => exact List.length_modify _ _ _
  have hready : ∀ i < s.proc.length, (entry s.unit.proc i).ready = (entry s.proc i).ready := by
    intro i hi
    rw [hproc]
    cases s.running with
    | none => rfl
    | some r =>
        rw [Option.elim_some, entry_modify hi]
        split <;> rfl
  constructor
  · intro i hi hne
    rw [hpid] at hne
    have := h.early i (by omega) hne
    rw [hready i (by omega), hnow]
    push_cast
    omega
  · intro r hr
    obtain ⟨hlt, hok⟩ := h.running r (hrun.symm.trans hr)
    exact ⟨by omega, by rw [hpid]; exact hok.1⟩

theorem Underway.step (hf : d.Forks os) (hp : d.Picks) (h : Underway s)
    (hstep : d.step os s = .next s'') : Underway s'' := by
  obtain ⟨s₁, s₂, s₃, htest, hfork, hswitch, rfl⟩ := step_cases hstep
  obtain ⟨h₁, hexec⟩ := h.finishTest htest
  exact ((h₁.forkReady hf hexec hfork).contextSwitch hp hswitch).unit

/-- Every state a run goes on from, whatever the table and the kernel. -/
theorem underway_of_next (hf : d.Forks os) (hp : d.Picks) {W : List Process} {o : Outcome State}
    (ho : ∀ s, o = .next s → ∃ log, s = State.initial W log) :
    ∀ k s, Outcome.run (d.step os) o k = .next s → Underway s ∧ s.proc.length = W.length := by
  refine Outcome.run_invariant (fun s hs => ?_) fun k s s' _ _ hstep ih => ?_
  · obtain ⟨log, rfl⟩ := ho s hs
    exact ⟨underway_initial W log, List.length_map _⟩
  · exact ⟨ih.1.step hf hp hstep, (length_step hf hstep).trans ih.2⟩

theorem length_arrive (hf : d.Forks os) (h : d.arrive os s = .next s') :
    s'.proc.length = s.proc.length := by
  obtain ⟨s₁, htest, hfork⟩ := Outcome.bind_eq_next.mp h
  rw [(forkReady_pids hf hfork).1]
  rcases finishTest_next_cases htest with ⟨rfl, -⟩ | ⟨r, -, -, rfl⟩
  · rfl
  · rw [reap_proc]

end Loop

namespace Rr

variable {os : Os} {q : Qsort} {W : List Process} {k r : ℕ} {s s' : Loop.State}

/-- The statements before the loop end the program or enter it with the sorted
    table. -/
theorem start_eq_next (h : start os q W = .next s) :
    ∃ log, s = Loop.State.initial (q.sort rrCompare W) log := by
  rw [start] at h
  split at h
  · cases h
  · next log _ =>
    split at h
    · cases h
    · exact ⟨_, (Outcome.next.inj h).symm⟩

theorem choosing_of_arrive (hrun : rrMain os q W k = .next s)
    (harr : discipline.arrive os s = .next s') :
    Loop.Choosing s' ∧ s'.proc.length = W.length := by
  obtain ⟨hU, hlen⟩ := Loop.underway_of_next (forks os) picks (fun _ => start_eq_next) k s hrun
  rw [Qsort.length_sort] at hlen
  exact ⟨hU.arrive (forks os) harr, (Loop.length_arrive (forks os) harr).trans hlen⟩

/-- Whenever `RR_next` rotates, its loop ends within `num_process - 1` steps at a
    forked unfinished process, the running one only if there is no other. -/
theorem rotation_ends (os : Os) (q : Qsort) (W : List Process) (k r : ℕ) (s s' : Loop.State)
    (hrun : rrMain os q W k = .next s) (harr : discipline.arrive os s = .next s')
    (hr : s'.running = some r) (hq : (s'.now - s'.last) % interval = 0) :
    s'.proc.length = W.length ∧ ∃ m i, m ≤ W.length - 1 ∧ i < W.length ∧
      RotationStops s'.proc ((r + 1) % W.length) m i ∧
      (entry s'.proc i).pid ≠ -1 ∧ (entry s'.proc i).exec ≠ 0 ∧
      (i = r ↔ ∀ j < W.length, j ≠ r → (entry s'.proc j).pid = -1 ∨ (entry s'.proc j).exec = 0) ∧
      rrNext s' = some (some i) := by
  obtain ⟨hC, hlen⟩ := choosing_of_arrive hrun harr
  obtain ⟨hlt, hok⟩ := hC.running r hr
  have hskip : ¬ Skipped s'.proc r := not_skip_iff.mpr hok
  obtain ⟨m, i, hm, hi, hs⟩ := While.ring_stops hlt hskip
  obtain ⟨hpid, hexec⟩ := not_skip_iff.mp hs.ends
  have hstart := hs.eq_start_iff hlt hm hi
  have hnext : rrNext s' = some (some i) := by
    have hrot : rotate s'.proc s'.proc.length ((r + 1) % s'.proc.length) = some i :=
      rotate_eq_some.mpr ⟨m, by omega, hs⟩
    rw [rrNext, hr]
    simp only [if_pos hq, hrot, Option.map_some]
  rw [← hlen]
  exact ⟨rfl, m, i, hm, hi, hs, hpid, hexec, hstart, hnext⟩

/-- Until P2 is ready the test of README.md runs P1 only. -/
theorem readme_first_quantum {σ : Schedule ℕ}
    (h : (jobsOf readmeWorkload).RoundRobin interval σ) : ∀ u < 500, σ u = some 0 := by
  have hrel : ∀ i, i < 4 → i ≠ 0 → 500 ≤ (jobsOf readmeWorkload).release i := by decide
  have honly : ∀ u < 500, ∀ i, σ u = some i → i = 0 := by
    intro u hu i hi
    have hel := h.legal u i hi
    by_contra hne
    have := hrel i (mem_jobsOf.mp hel.mem) hne
    have := hel.released
    omega
  intro u hu
  have hel : (jobsOf readmeWorkload).Eligible σ u 0 := by
    refine ⟨mem_jobsOf.mpr (by decide), Nat.zero_le u, ?_⟩
    have hle := σ.served_le u 0
    have hlen : (jobsOf readmeWorkload).length 0 = 2000 := rfl
    omega
  obtain ⟨y, hy⟩ := Option.ne_none_iff_exists'.mp (h.busy u 0 hel)
  rw [hy, honly u hu y hy]

/-- The test of README.md comes to a rotation at clock 500. -/
theorem readme_rotates : ∃ s s', rrMain Os.counting Qsort.insertion readmeWorkload 500 = .next s ∧
    discipline.arrive Os.counting s = .next s' ∧ s'.running = some 0 ∧
    (s'.now - s'.last) % interval = 0 := by
  have hW : WellFormed readmeWorkload := by decide
  have hself : Qsort.insertion.sort rrCompare readmeWorkload = readmeWorkload :=
    Policy.table_eq_self (P := .rr) Qsort.insertion_stable hW (by decide)
  have hlaw : (jobsOf readmeWorkload).RoundRobin interval
      (Policy.rr.ran Os.counting Qsort.insertion readmeWorkload) := by
    have hlaw := Policy.law (P := .rr) (q := Qsort.insertion) Os.counting_healthy hW
      fun h => by cases h
    rwa [show Policy.rr.table Qsort.insertion readmeWorkload = readmeWorkload from hself] at hlaw
  obtain ⟨log, hlog, hstart⟩ := start_ok Os.counting_healthy Qsort.insertion readmeWorkload
  rw [hself] at hstart
  have hd := obeys Os.counting_healthy hW
  rw [Policy.ran_rr Os.counting_healthy hW] at hlaw
  obtain ⟨T, hT, hnext, -⟩ := Loop.run_spec hd hW hlog.marks hstart
  generalize Loop.followed discipline Os.counting
    (start Os.counting Qsort.insertion readmeWorkload) = σ at hlaw hT hnext
  have hfirst := readme_first_quantum hlaw
  -- P1 is not finished before clock 2000
  have hunf : ∀ t < 2000, ¬ (jobsOf readmeWorkload).Finished σ t := by
    intro t ht hfin
    have hle := σ.served_le t 0
    have hlen : (jobsOf readmeWorkload).length 0 ≤ σ.served t 0 := hfin 0 (by decide)
    have h2000 : (jobsOf readmeWorkload).length 0 = 2000 := rfl
    omega
  have hT' : 500 ≤ T := by
    by_contra hlt
    exact hunf T (by omega) hT.finished
  obtain ⟨s, hs, hI, hB⟩ := hnext 500 hT'
  rcases Loop.arrive_spec hd hW hI hB with ⟨-, s', harr, hC⟩ | ⟨hfin, -⟩
  · have hcur : (jobsOf readmeWorkload).current σ 500 = some 0 := by
      refine Jobs.current_succ (hfirst 499 (by omega)) ?_
      exact Nat.lt_of_le_of_lt (σ.served_le 500 0) (by decide)
    have hlast : σ.lastStart 500 = 0 :=
      Schedule.lastStart_of_run ⟨hfirst 0 (by omega), by simp⟩ (by omega)
        fun u _ hu => hfirst u hu
    refine ⟨s, s', hs, harr, hC.running.trans hcur, ?_⟩
    rw [hC.now, hC.last rfl, hlast]
    rfl
  · exact absurd hfin (hunf 500 (by omega))

theorem rotation_ends_readme : ∃ s s',
    rrMain Os.counting Qsort.insertion readmeWorkload 500 = .next s ∧
      discipline.arrive Os.counting s = .next s' ∧ s'.running = some 0 ∧
      (s'.now - s'.last) % interval = 0 ∧ s'.proc.length = readmeWorkload.length ∧
      ∃ m i, m ≤ readmeWorkload.length - 1 ∧ i < readmeWorkload.length ∧
        RotationStops s'.proc ((0 + 1) % readmeWorkload.length) m i ∧
        (entry s'.proc i).pid ≠ -1 ∧ (entry s'.proc i).exec ≠ 0 ∧
        (i = 0 ↔ ∀ j < readmeWorkload.length, j ≠ 0 →
          (entry s'.proc j).pid = -1 ∨ (entry s'.proc j).exec = 0) ∧
        rrNext s' = some (some i) := by
  obtain ⟨s, s', hrun, harr, hr, hq⟩ := readme_rotates
  exact ⟨s, s', hrun, harr, hr, hq, rotation_ends Os.counting Qsort.insertion readmeWorkload 500 0
    s s' hrun harr hr hq⟩

end Rr
end ProcSched
