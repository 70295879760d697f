/-
  ProcSched.Props.Rotation

  The rotation of RR.  After a finish RR_next scans from index 0 instead of
  going on behind the finished process, so a process can be dispatched again
  before one behind the finished process has had its turn.  That is the only way
  to be skipped.
-/

import ProcSched.Lib.Rotation
import ProcSched.Refine.Policy

namespace ProcSched
namespace Rr

/-- In the iteration with clock `c`, `running` changes to `i`. -/
def DispatchedAt (os : Os) (q : Qsort) (W : List Process) (c i : ℕ) : Prop :=
  (c, Mark.switch i) ∈ (rrMain os q W (c + 1)).state.log.marks

/-- In the iteration with clock `c`, `finish_cnt` is incremented for `i`. -/
def FinishedAt (os : Os) (q : Qsort) (W : List Process) (c i : ℕ) : Prop :=
  (c, Mark.finish i) ∈ (rrMain os q W (c + 1)).state.log.marks

/-- In the iteration with clock `c`, `RR_next` is called with `proc[i]` forked
    and unfinished. -/
def EligibleAt (os : Os) (q : Qsort) (W : List Process) (c i : ℕ) : Prop :=
  i < W.length ∧ ∃ s s', rrMain os q W c = .next s ∧ discipline.arrive os s = .next s' ∧
    (entry s'.proc i).pid ≠ -1 ∧ 0 < (entry s'.proc i).exec

/-- Between two consecutive dispatches of a process every other one that is
    eligible all the time is dispatched. -/
def ServesInTurn (os : Os) (q : Qsort) (W : List Process) : Prop :=
  ∀ i j a c, DispatchedAt os q W a i → a < c → DispatchedAt os q W c i →
    (∀ b, a < b → b < c → ¬ DispatchedAt os q W b i) → i ≠ j →
      (∀ b, a ≤ b → b ≤ c → EligibleAt os q W b j) → ∃ b, a < b ∧ b < c ∧ DispatchedAt os q W b j

/-- At some clock `c` a process `k` is counted finished while an entry `i` in
    front of it, last dispatched at `a`, and an entry `l` behind it, ready by
    then, are both unfinished. -/
def CutShort (os : Os) (q : Qsort) (W : List Process) : Prop :=
  ∃ i k l a c, DispatchedAt os q W a i ∧ a < c ∧
    (∀ b, a < b → b < c → ¬ DispatchedAt os q W b i) ∧ FinishedAt os q W c k ∧ i < k ∧ k < l ∧
      EligibleAt os q W c i ∧ EligibleAt os q W c l ∧
        (entry (q.sort rrCompare W) l).ready ≤ a

section

variable {os : Os} {q : Qsort} {W : List Process} (hos : os.Healthy) (hW : WellFormed W)
include hos hW

theorem describes_rr : Describes (Policy.rr.run os q W) (q.sort rrCompare W)
    (roundRobinLaw (q.sort rrCompare W)) (Policy.rr.ran os q W) 1 (makespan W) :=
  Policy.describes (P := .rr) hos hW fun h => by cases h

theorem dispatchedAt_iff (c i : ℕ) :
    DispatchedAt os q W c i ↔ (Policy.rr.ran os q W).Starts c i := by
  rw [← (describes_rr hos hW).switch_mem, Policy.run, Outcome.state_map]
  rfl

theorem finishedAt_iff (c i : ℕ) : FinishedAt os q W c i ↔
    (jobsOf (q.sort rrCompare W)).ended (Policy.rr.ran os q W) c = some i := by
  rw [← (describes_rr hos hW).finish_mem rfl, Policy.run, Outcome.state_map]
  rfl

theorem eligibleAt_iff (c i : ℕ) : EligibleAt os q W c i ↔
    (jobsOf (q.sort rrCompare W)).Eligible (Policy.rr.ran os q W) c i := by
  have hT : WellFormed (q.sort rrCompare W) := Policy.table_wellFormed (P := .rr) (q := q) hW
  have hlen : (q.sort rrCompare W).length = W.length := q.length_sort _ _
  obtain ⟨log, hlog, hstart⟩ := start_ok hos q W
  rw [Policy.ran_rr hos hW]
  -- at the choice the test of `RR_next` finds the eligible entries
  have hchoice : ∀ s, rrMain os q W c = .next s →
      ¬ (jobsOf (q.sort rrCompare W)).Finished (Loop.followed discipline os (start os q W)) c →
        ∃ s', discipline.arrive os s = .next s' ∧ ∀ i < W.length,
          ((entry s'.proc i).pid ≠ -1 ∧ 0 < (entry s'.proc i).exec ↔
            (jobsOf (q.sort rrCompare W)).Eligible
              (Loop.followed discipline os (start os q W)) c i) := by
    intro s hs hnot
    obtain ⟨hI, hB⟩ := Loop.inv_of_next (obeys hos hT) hT hlog.marks hstart hs
    rcases Loop.arrive_spec (obeys hos hT) hT hI hB with ⟨-, s', harr, hC⟩ | ⟨hfin, -⟩
    · refine ⟨s', harr, fun i hi => ?_⟩
      rw [← hlen] at hi
      rw [← hC.runnable_iff hT hi, Runnable]
      have hexec := hC.tracks.exec_eq_left hT hi (hC.served_le i hi)
      exact and_congr_right fun _ => by omega
    · exact absurd hfin hnot
  constructor
  · rintro ⟨hi, s, s', hs, harr, hrun⟩
    obtain ⟨hI, hB⟩ := Loop.inv_of_next (obeys hos hT) hT hlog.marks hstart hs
    have hnot : ¬ (jobsOf (q.sort rrCompare W)).Finished
        (Loop.followed discipline os (start os q W)) c := fun hfin => by
      rcases Loop.arrive_spec (obeys hos hT) hT hI hB with ⟨hnot, -⟩ | ⟨-, s₁, hdone, -⟩
      · exact hnot hfin
      · rw [harr] at hdone
        cases hdone
    obtain ⟨s₁, harr₁, hiff⟩ := hchoice s hs hnot
    rw [harr] at harr₁
    cases harr₁
    exact (hiff i hi).mp hrun
  · intro hel
    have hi : i < W.length := by
      rw [← hlen]
      exact mem_jobsOf.mp hel.mem
    have hnot : ¬ (jobsOf (q.sort rrCompare W)).Finished
        (Loop.followed discipline os (start os q W)) c := fun hfin =>
      not_eligible_of_finished hfin (Nat.le_refl c) i hel
    obtain ⟨T, hC, hnext, -⟩ := Loop.run_spec (obeys hos hT) hT hlog.marks hstart
    have hc : c ≤ T := by
      by_contra hlt
      exact not_eligible_of_finished hC.finished (by omega) i hel
    obtain ⟨s, hs, -⟩ := hnext c hc
    obtain ⟨s', harr, hiff⟩ := hchoice s hs hnot
    exact ⟨hi, s, s', hs, harr, (hiff i hi).mpr hel⟩

theorem fair_iff_servesInTurn : ServesInTurn os q W ↔
    (jobsOf (q.sort rrCompare W)).Fair (Policy.rr.ran os q W) := by
  simp only [ServesInTurn, Jobs.Fair, dispatchedAt_iff hos hW, eligibleAt_iff hos hW]

theorem cutShort_iff : CutShort os q W ↔
    (jobsOf (q.sort rrCompare W)).CutShort (Policy.rr.ran os q W) := by
  have hT : WellFormed (q.sort rrCompare W) := Policy.table_wellFormed (P := .rr) (q := q) hW
  simp only [CutShort, Jobs.CutShort, dispatchedAt_iff hos hW, eligibleAt_iff hos hW,
    finishedAt_iff hos hW, Jobs.ended_eq_some, and_assoc]
  have hrel : ∀ c l a : ℕ, (jobsOf (q.sort rrCompare W)).Eligible (Policy.rr.ran os q W) c l →
      ((entry (q.sort rrCompare W) l).ready ≤ (a : Int) ↔
        (jobsOf (q.sort rrCompare W)).release l ≤ a) := fun c l a hel => by
    have := hT.release_eq (mem_jobsOf.mp hel.mem)
    omega
  constructor
  · rintro ⟨i, k, l, a, c, h₁, h₂, h₃, h₄, h₅, h₆, h₇, h₈, h₉, h₁₀⟩
    exact ⟨i, k, l, a, c, h₁, h₂, h₃, h₄, h₅, h₆, h₇, h₈, h₉, (hrel c l a h₉).mp h₁₀⟩
  · rintro ⟨i, k, l, a, c, h₁, h₂, h₃, h₄, h₅, h₆, h₇, h₈, h₉, h₁₀⟩
    exact ⟨i, k, l, a, c, h₁, h₂, h₃, h₄, h₅, h₆, h₇, h₈, h₉, (hrel c l a h₉).mpr h₁₀⟩

theorem roundRobin_ran :
    (jobsOf (q.sort rrCompare W)).RoundRobin interval (Policy.rr.ran os q W) :=
  Policy.law (P := .rr) hos hW fun h => by cases h

theorem not_servesInTurn_of_cutShort
    (h : (jobsOf (q.sort rrCompare W)).CutShort (Policy.rr.ran os q W)) :
    ¬ ServesInTurn os q W := by
  rw [fair_iff_servesInTurn hos hW]
  exact (roundRobin_ran hos hW).not_fair_of_cutShort
    (fun i hi => ⟨_, (describes_rr hos hW).finished i hi⟩) h

end

/-- RR serves the processes in turn exactly if no finish cuts a rotation short. -/
theorem servesInTurn_iff (os : Os) (q : Qsort) (W : List Process) (hos : os.Healthy)
    (hW : WellFormed W) : ServesInTurn os q W ↔ ¬ CutShort os q W := by
  rw [fair_iff_servesInTurn hos hW, cutShort_iff hos hW]
  exact (roundRobin_ran hos hW).fair_iff fun i hi => ⟨_, (describes_rr hos hW).finished i hi⟩

theorem servesInTurn_iff_readme : ServesInTurn Os.counting Qsort.insertion readmeWorkload ↔
    ¬ CutShort Os.counting Qsort.insertion readmeWorkload :=
  servesInTurn_iff Os.counting Qsort.insertion readmeWorkload Os.counting_healthy (by decide)

/-! ## A process that is skipped -/

/-- One long and two short processes, ready together. -/
def skippedWorkload : List Process :=
  [Record.load ⟨"P1", 0, 600⟩, Record.load ⟨"P2", 0, 100⟩, Record.load ⟨"P3", 0, 100⟩]

/-- P1 runs for a quantum, then P2 to its end; P3 is behind P2. -/
theorem skipped_cutShort {σ : Schedule ℕ} (h : (jobsOf skippedWorkload).RoundRobin interval σ) :
    (jobsOf skippedWorkload).CutShort σ := by
  have hrel : ∀ i < 3, (jobsOf skippedWorkload).release i = 0 := by decide
  have hel : ∀ t i, i < 3 → σ.served t i < (jobsOf skippedWorkload).length i →
      (jobsOf skippedWorkload).Eligible σ t i := fun t i hi hlt =>
    ⟨mem_jobsOf.mpr hi, (hrel i hi).le.trans (Nat.zero_le t), hlt⟩
  have hlen₀ : (jobsOf skippedWorkload).length 0 = 600 := rfl
  have hlen₁ : (jobsOf skippedWorkload).length 1 = 100 := rfl
  have hlen₂ : (jobsOf skippedWorkload).length 2 = 100 := rfl
  have hserved₀ : ∀ t, σ.served t 0 ≤ t := fun t => σ.served_le t 0
  -- clocks 0 to 499: P1
  have hstart₀ : σ.Starts 0 0 := by
    have hel₀ := hel 0 0 (by omega) (by rw [hlen₀]; simp)
    obtain ⟨y, hy⟩ := Option.ne_none_iff_exists'.mp (h.busy 0 0 hel₀)
    have := h.first 0 y 0 (Jobs.current_zero σ) hy hel₀
    obtain rfl : y = 0 := by omega
    exact ⟨hy, by simp⟩
  have hrun₀ : ∀ b, b < 500 → σ b = some 0 := fun b hb => by
    have hunf := hserved₀ 499
    exact h.keeps_quantum hstart₀ (Nat.zero_le 499) (by rw [interval]; omega) (by omega) b
      (Nat.zero_le b) (by omega)
  have hother : ∀ i, i ≠ 0 → σ.served 500 i = 0 := fun i hi => by
    rw [Schedule.served_eq_of_not_run (Nat.zero_le 500), Schedule.served_zero]
    intro u _ hu he
    exact hi (Option.some.inj (he.symm.trans (hrun₀ u hu)))
  -- clock 500: the rotation goes on to P2
  have hstart₁ : σ.Starts 500 1 := by
    have hcur : (jobsOf skippedWorkload).current σ 500 = some 0 :=
      Jobs.current_succ (hrun₀ 499 (by omega)) (by have := hserved₀ (499 + 1); omega)
    have hlast : σ.lastStart 500 = 0 :=
      Schedule.lastStart_of_run hstart₀ (by omega) fun u _ hu => hrun₀ u (by omega)
    have hel₁ := hel 500 1 (by omega) (by rw [hother 1 (by omega), hlen₁]; omega)
    obtain ⟨y, hy⟩ := Option.ne_none_iff_exists'.mp (h.busy 500 1 hel₁)
    have hprev : σ.prev 500 = some 0 := hrun₀ 499 (by omega)
    rcases h.rotate 500 0 y hcur (by rw [hlast, interval]) hy with ⟨hlt, hleast⟩ | ⟨-, hwrap⟩
    · have := hleast 1 hel₁ (by omega)
      obtain rfl : y = 1 := by omega
      exact ⟨hy, by rw [hprev]; simp⟩
    · have := (hwrap 1 hel₁).1
      omega
  -- clocks 500 to 599: P2, to its end
  have hrun₁ : ∀ b, 500 ≤ b → b < 600 → σ b = some 1 := fun b hb hlt => by
    have hunf : σ.served 599 1 ≤ σ.served 500 1 + 99 := σ.served_le_add 500 99 1
    rw [hother 1 (by omega)] at hunf
    exact h.keeps_quantum hstart₁ (show 500 ≤ 599 by omega) (by rw [interval]; omega) (by omega)
      b hb (by omega)
  have hend : σ.served 600 1 = σ.served 500 1 + 100 :=
    Schedule.served_add_of_run (d := 100) fun u hu hlt => hrun₁ u hu hlt
  have hkeep : ∀ i, i ≠ 1 → σ.served 600 i = σ.served 500 i := fun i hi =>
    Schedule.served_eq_of_not_run (by omega) fun u hu hlt he =>
      hi (Option.some.inj (he.symm.trans (hrun₁ u hu hlt)))
  refine ⟨0, 1, 2, 0, 600, hstart₀, by omega, fun b hb hlt hs => ?_, hrun₁ 599 (by omega)
    (by omega), by omega, by omega, by omega, hel 600 0 (by omega) ?_, hel 600 2 (by omega) ?_, ?_⟩
  · rcases Nat.lt_or_ge b 500 with hb' | hb'
    · obtain ⟨u, rfl⟩ : ∃ u, b = u + 1 := ⟨b - 1, by omega⟩
      exact hs.2 (hrun₀ u (by omega))
    · have := (hrun₁ b hb' hlt).symm.trans hs.1
      simp at this
  · have := hserved₀ 500
    rw [hkeep 0 (by omega)]
    omega
  · rw [hkeep 2 (by omega), hother 2 (by omega)]
    omega
  · exact Nat.le_of_eq rfl

/-- P2 ends at clock 600, P1 is dispatched for the second time and P3, ready
    since clock 0, has not been dispatched. -/
theorem skipped_not_servesInTurn :
    Os.counting.Healthy ∧ WellFormed skippedWorkload ∧
      ¬ ServesInTurn Os.counting Qsort.insertion skippedWorkload := by
  have hW : WellFormed skippedWorkload := by decide
  have hself : Qsort.insertion.sort rrCompare skippedWorkload = skippedWorkload :=
    Policy.table_eq_self (P := .rr) Qsort.insertion_stable hW (by decide)
  have hR := roundRobin_ran (q := Qsort.insertion) Os.counting_healthy hW
  refine ⟨Os.counting_healthy, hW, not_servesInTurn_of_cutShort Os.counting_healthy hW ?_⟩
  rw [hself] at hR ⊢
  exact skipped_cutShort hR

end Rr
end ProcSched
