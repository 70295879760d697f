/-
  ProcSched.Props.Preemption

  PSJF decrements a shortest of the waiting processes, which are the arrived
  unfinished ones, and takes the processor from an unfinished process only for
  one that arrives at that moment.  Every context switch therefore goes with an
  arrival or a finish.
-/

import ProcSched.Refine.Switches

namespace ProcSched
namespace Psjf

/-- What the state `s` after the fork scan of the iteration with clock `k` has to
    do with the process run in it. -/
structure ShortestRemaining (os : Os) (q : Qsort) (W : List Process) (k : ℕ) (s : State) :
    Prop where
  /-- the flags mark the arrived unfinished processes -/
  flags : ∀ i < W.length, (entry s.proc i).waiting = 1 ↔
    (entry s.proc i).ready ≤ k ∧ 0 < (entry s.proc i).exec
  /-- one with the least counter is decremented, if there is one at all -/
  least : (∃ i < W.length, (entry s.proc i).waiting = 1) →
    ∃ i < W.length, Policy.psjf.ran os q W k = some i ∧ (entry s.proc i).waiting = 1 ∧
      ∀ j < W.length, (entry s.proc j).waiting = 1 → (entry s.proc i).exec ≤ (entry s.proc j).exec
  /-- an unfinished process is left only for one that arrives, and is not longer -/
  arrival : ∀ t r j, k = t + 1 → Policy.psjf.ran os q W t = some r → 0 < (entry s.proc r).exec →
    Policy.psjf.ran os q W k = some j → j ≠ r →
      (entry s.proc j).ready = k ∧ (entry s.proc j).exec ≤ (entry s.proc r).exec

section

variable {os : Os} {q : Qsort} {W : List Process} (hos : os.Healthy) (hW : WellFormed W)
  (hz : ZeroWaiting W)
include hos hW hz

theorem srpt_ran : (jobsOf W).Srpt (Policy.psjf.ran os q W) :=
  Policy.law (P := .psjf) hos hW fun _ => hz

theorem shortestRemaining_of_next {k : ℕ} {s s₁ : State} (hs : psjf os W k = .next s)
    (hgo : s.finished ≠ s.proc.length) (hfork : forkReady os s = .next s₁) :
    ShortestRemaining os q W k s₁ := by
  have hS := srpt_ran (q := q) hos hW hz
  obtain ⟨hI, hB⟩ := inv_of_next hos hW hz hs
  rcases step_spec hos hW hI hB with ⟨-, s₂, hfork₂, hC, -, -⟩ | ⟨hfin, -⟩
  · rw [hfork, Outcome.next.injEq] at hfork₂
    subst hfork₂
    have hrun := followed_of_next hs hgo hfork
    rw [← Policy.ran_psjf (q := q) hos hW hz] at hrun hC
    obtain ⟨hnone, hsome, -⟩ := hC.choice_spec hW
    rw [← hrun] at hnone hsome
    have hexec : ∀ i < W.length, (entry s₁.proc i).exec =
        ((jobsOf W).left (Policy.psjf.ran os q W) k i : ℕ) := fun i hi =>
      hC.tracks.exec_eq_left hW hi (hC.served_le i hi)
    have hready : ∀ i < W.length, (entry s₁.proc i).ready = ((jobsOf W).release i : Int) :=
      fun i hi => (hC.tracks.ready_eq i hi).trans (hW.release_eq hi).symm
    refine ⟨fun i hi => ?_, ?_, fun t r j hk hr hunf hj hjr => ?_⟩
    -- arrived and unfinished is eligible
    · rw [hC.waiting i hi, hexec i hi, hready i hi, Jobs.left]
      constructor
      · intro hel
        have h₁ := hel.released
        have h₂ := hel.unfinished
        omega
      · rintro ⟨h₁, h₂⟩
        exact ⟨mem_jobsOf.mpr hi, by omega, by omega⟩
    · rintro ⟨j, hj, hwait⟩
      cases hrun' : Policy.psjf.ran os q W k with
      | none => exact absurd ((hC.waiting j hj).mp hwait) (hnone hrun' j)
      | some i =>
          have hel := hsome i hrun'
          have hi := mem_jobsOf.mp hel.mem
          refine ⟨i, hi, rfl, (hC.waiting i hi).mpr hel, fun l hl hwl => ?_⟩
          have hleast := hS.least k i l hrun' ((hC.waiting l hl).mp hwl)
          rw [hexec i hi, hexec l hl]
          omega
    -- `r` is carried over, so `j` has preempted it
    · subst hk
      have hel := hS.legal _ j hj
      have hj' := mem_jobsOf.mp hel.mem
      have hr' := mem_jobsOf.mp (hS.legal t r hr).mem
      rw [hexec r hr', Jobs.left] at hunf
      obtain ⟨hrel, hle⟩ := hS.preempted_by_arrival
        (Jobs.current_succ hr (by omega)) hj hjr
      rw [hready j hj', hexec j hj', hexec r hr']
      omega
  · exact absurd (hI.finished_iff.mpr hfin) hgo

/-- A context switch goes with an arrival or a finish. -/
theorem switches_le {k : ℕ} {s : State} (hs : psjf os W k = .done s) :
    s.log.switches.length ≤ 2 * W.length - 1 := by
  have hd : Describes (Policy.psjf.run os Qsort.insertion W) W (srptLaw W)
      (Policy.psjf.ran os Qsort.insertion W) 0 (makespan W) :=
    Policy.describes (P := .psjf) hos hW fun _ => hz
  have hS := srpt_ran (q := Qsort.insertion) hos hW hz
  have hrun : Policy.psjf.run os Qsort.insertion W k = .done s.snapshot :=
    congrArg (Outcome.map State.snapshot) hs
  -- the switches of the log are the changes of the schedule
  have hlist : s.log.switches = starts (Policy.psjf.ran os Qsort.insertion W) (makespan W) :=
    hd.switches_eq hrun
  have hcard : (jobsOf W).jobs.card = W.length := Finset.card_range _
  have hle := hS.changes_le hW.mem_length_pos
    ⟨0, mem_jobsOf.mpr hW.length_pos⟩ hd.finished
  rw [hlist, length_starts]
  omega

end

/-- PSJF always runs a process with least work left, preempts only on arrival,
    and makes at most `2 * n_proc - 1` context switches. -/
theorem shortest_remaining (os : Os) (q : Qsort) (W : List Process) (hos : os.Healthy)
    (hW : WellFormed W) (hz : ZeroWaiting W) :
    (∀ k s s₁, psjf os W k = .next s → s.finished ≠ s.proc.length → forkReady os s = .next s₁ →
      s₁.time = k ∧ ShortestRemaining os q W k s₁) ∧
      ∃ k s, psjf os W k = .done s ∧ s.log.switches.length ≤ 2 * W.length - 1 := by
  constructor
  · intro k s s₁ hs hgo hfork
    refine ⟨?_, shortestRemaining_of_next hos hW hz hs hgo hfork⟩
    obtain ⟨hI, hB⟩ := inv_of_next hos hW hz hs
    obtain ⟨s₂, hfork₂, hC⟩ := forkReady_spec hos hW hI hB
    rw [hfork, Outcome.next.injEq] at hfork₂
    rw [hfork₂]
    exact hC.time
  · obtain ⟨T, -, -, s, hs, -⟩ := run_spec hos hW hz
    exact ⟨T + 1, s, hs, switches_le hos hW hz hs⟩

theorem shortest_remaining_readme :
    (∀ k s s₁, psjf Os.counting readmeWorkload k = .next s → s.finished ≠ s.proc.length →
      forkReady Os.counting s = .next s₁ →
        s₁.time = k ∧ ShortestRemaining Os.counting Qsort.insertion readmeWorkload k s₁) ∧
      ∃ k s, psjf Os.counting readmeWorkload k = .done s ∧
        s.log.switches.length ≤ 2 * readmeWorkload.length - 1 :=
  shortest_remaining Os.counting Qsort.insertion readmeWorkload Os.counting_healthy (by decide)
    (by decide)

end Psjf
end ProcSched
