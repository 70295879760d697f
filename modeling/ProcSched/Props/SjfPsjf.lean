/-
  ProcSched.Props.SjfPsjf

  On a workload in ready order SJF and PSJF make the same run exactly when, in
  the SJF run, no process arrives that is shorter than what the running one has
  left.
-/

import ProcSched.Lib.Compare
import ProcSched.Refine.Policy

namespace ProcSched

/-- In the SJF run some process is ready at a clock at which another one is
    running and has more units left than the newcomer. -/
def ShorterArrives (os : Os) (q : Qsort) (W : List Process) : Prop :=
  ∃ c s i j, Sjf.sjf os q W c = .next s ∧ s.running = some i ∧ j < W.length ∧ j ≠ i ∧
    (entry s.proc j).ready = s.now ∧ (entry s.proc j).exec < (entry s.proc i).exec

section

variable {os : Os} {q : Qsort} {W : List Process}

variable (hos : os.Healthy) (hW : WellFormed W) (hq : q.Stable)
  (hs : W.Pairwise fun a b => a.ready ≤ b.ready)
include hos hW hq hs

theorem shorterArrives_iff :
    ShorterArrives os q W ↔ (jobsOf W).ShorterArrival (Policy.sjf.ran os q W) := by
  have hself : q.sort Sjf.cmp W = W := Policy.table_eq_self (P := .sjf) hq hW hs
  have hd := Policy.sjf.describes (q := q) hos hW fun h => by cases h
  rw [show Policy.sjf.table q W = W from hself] at hd
  obtain ⟨log, hlog, hstart⟩ := Sjf.start_ok hos q W
  rw [hself] at hstart
  -- the invariant of the loop, for the schedule read off the log
  have hinv : ∀ c s, Sjf.sjf os q W c = .next s →
      Loop.Inv Sjf.discipline W (Policy.sjf.ran os q W) c s := by
    intro c s hrun
    rw [Policy.ran_sjf hos hW]
    exact (Loop.inv_of_next (Sjf.obeys hos hW) hW hlog.marks hstart hrun).1
  have hready : ∀ {c s j}, Sjf.sjf os q W c = .next s → j < W.length →
      ((entry s.proc j).ready = s.now ↔ (jobsOf W).release j = c) := by
    intro c s j hrun hj
    have hI := hinv c s hrun
    rw [hI.tracks.ready_iff hW hj, hI.now]
  have hexec : ∀ {c s j}, Sjf.sjf os q W c = .next s → j < W.length →
      (entry s.proc j).exec = ((jobsOf W).left (Policy.sjf.ran os q W) c j : ℕ) := by
    intro c s j hrun hj
    exact (hinv c s hrun).tracks.exec_eq_left hW hj (hd.legal.served_le c)
  constructor
  · rintro ⟨c, s, i, j, hrun, hi, hj, hji, hr, hlt⟩
    have hprev := (hinv c s hrun).running.symm.trans hi
    have hi' : i < W.length := by
      cases c with
      | zero => simp at hprev
      | succ t => exact mem_jobsOf.mp (hd.legal t i hprev).mem
    have hrel := (hready hrun hj).mp hr
    rw [hexec hrun hj, hexec hrun hi'] at hlt
    refine ⟨c, i, j, hprev, mem_jobsOf.mpr hj, hrel, ?_⟩
    have hzero := hd.legal.served_eq_zero hrel.ge
    simp only [Jobs.left, hzero] at hlt ⊢
    omega
  · rintro ⟨c, i, j, hprev, hj, hrel, hlt⟩
    have hj' := mem_jobsOf.mp hj
    have hi : c ≠ 0 ∧ i < W.length := by
      cases c with
      | zero => simp at hprev
      | succ t => exact ⟨Nat.succ_ne_zero t, mem_jobsOf.mp (hd.legal t i hprev).mem⟩
    -- the run goes on at clock `c`, since `i` has units left
    have hc : c ≤ makespan W := by
      by_contra hgt
      have := hd.toCompletes.served_eq (t := c) (by omega) i
      have := hd.finished i (mem_jobsOf.mpr hi.2)
      rw [Jobs.left] at hlt
      omega
    obtain ⟨_, hs', -⟩ := hd.next c hc
    obtain ⟨s, hrun, -⟩ := Outcome.map_eq_next.mp hs'
    have hzero := hd.legal.served_eq_zero hrel.ge
    refine ⟨c, s, i, j, hrun, (hinv c s hrun).running.trans hprev, hj', ?_, ?_, ?_⟩
    · rintro rfl
      rw [Jobs.left] at hlt
      omega
    · exact (hready hrun hj').mpr hrel
    · rw [hexec hrun hj', hexec hrun hi.2]
      simp only [Jobs.left, hzero] at hlt ⊢
      omega

end

/-- On a workload in ready order SJF and PSJF run the same process in every unit
    exactly when no shorter process arrives during the SJF run, in particular
    when all ready times are equal. -/
theorem sjf_eq_psjf_iff (os : Os) (q : Qsort) (W : List Process) (hos : os.Healthy)
    (hq : q.Stable) (hW : WellFormed W) (hz : ZeroWaiting W)
    (hs : W.Pairwise fun a b => a.ready ≤ b.ready) :
    Policy.sjf.table q W = W ∧
      ((∀ t, Policy.sjf.ran os q W t = Policy.psjf.ran os q W t) ↔ ¬ ShorterArrives os q W) ∧
      ((∀ p ∈ W, ∀ p' ∈ W, p.ready = p'.ready) →
        ∀ t, Policy.sjf.ran os q W t = Policy.psjf.ran os q W t) := by
  have hself := Policy.table_eq_self (P := .sjf) hq hW hs
  have hS : (jobsOf (Policy.sjf.table q W)).Sjn (Policy.sjf.ran os q W) :=
    Policy.law (P := .sjf) hos hW fun h => by cases h
  have hP : (jobsOf W).Srpt (Policy.psjf.ran os q W) :=
    Policy.law (P := .psjf) hos hW fun _ => hz
  rw [hself] at hS
  have hsorted : ∀ i ∈ (jobsOf W).jobs, ∀ j ∈ (jobsOf W).jobs, i ≤ j →
      (jobsOf W).release i ≤ (jobsOf W).release j := fun i _ j hj hij =>
    Int.toNat_le_toNat (ready_le_of_le hs hij (mem_jobsOf.mp hj))
  have hiff := hS.eq_srpt_iff hP hsorted hW.mem_length_pos
  refine ⟨hself, ?_, fun hsame => hiff.mpr (hS.legal.no_shorterArrival fun i hi j hj => ?_)⟩
  · rw [hiff, shorterArrives_iff hos hW hq hs]
  · exact congrArg Int.toNat (hsame _ (entry_mem (mem_jobsOf.mp hi)) _
      (entry_mem (mem_jobsOf.mp hj)))

theorem sjf_eq_psjf_iff_readme :
    Policy.sjf.table Qsort.insertion readmeWorkload = readmeWorkload ∧
      ((∀ t, Policy.sjf.ran Os.counting Qsort.insertion readmeWorkload t
          = Policy.psjf.ran Os.counting Qsort.insertion readmeWorkload t) ↔
        ¬ ShorterArrives Os.counting Qsort.insertion readmeWorkload) ∧
      ((∀ p ∈ readmeWorkload, ∀ p' ∈ readmeWorkload, p.ready = p'.ready) →
        ∀ t, Policy.sjf.ran Os.counting Qsort.insertion readmeWorkload t
          = Policy.psjf.ran Os.counting Qsort.insertion readmeWorkload t) :=
  sjf_eq_psjf_iff Os.counting Qsort.insertion readmeWorkload Os.counting_healthy
    Qsort.insertion_stable (by decide) (by decide) (by decide)

end ProcSched
