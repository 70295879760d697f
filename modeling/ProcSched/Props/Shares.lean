/-
  ProcSched.Props.Shares

  How RR divides the processor.  Between two finishes, processes that are
  eligible all the time get the same number of units but for one quantum; and
  over the whole run a process is switched to at most once for each quantum it
  needs.
-/

import ProcSched.Lib.Shares
import ProcSched.Props.Rotation
import ProcSched.Refine.Switches

namespace ProcSched
namespace Rr

/-- The units `proc[i]` gets between the clocks `a` and `c`, by its counter. -/
def given (os : Os) (q : Qsort) (W : List Process) (a c i : ℕ) : Int :=
  (entry (rrMain os q W a).state.proc i).exec - (entry (rrMain os q W c).state.proc i).exec

/-- How often the loop that left the log `log` has switched to `proc[i]`. -/
def switchCount (log : Log) (i : ℕ) : ℕ := (log.switches.filter fun e => e.2 = i).length

/-- The starts of a job, counted. -/
theorem length_filter_starts (σ : Schedule ℕ) (t i : ℕ) :
    ((starts σ t).filter fun e => e.2 = i).length = σ.dispatches t i := by
  induction t with
  | zero => rfl
  | succ t ih =>
      rw [starts_succ, List.filter_append, List.length_append, ih, Schedule.dispatches]
      cases hrun : σ t with
      | none => simp
      | some j =>
          by_cases hprev : σ.prev t = some j <;> by_cases hji : j = i <;> simp_all

section

variable {os : Os} {q : Qsort} {W : List Process} {a c i : ℕ} (hos : os.Healthy)
  (hW : WellFormed W)
include hos hW

theorem given_eq (hi : i < W.length) : given os q W a c i =
    (Policy.rr.ran os q W).served c i - (Policy.rr.ran os q W).served a i := by
  have hi' : i < (q.sort rrCompare W).length := lt_of_lt_of_eq hi (q.length_sort _ _).symm
  have hexec : ∀ k, (entry (rrMain os q W k).state.proc i).exec =
      (entry (q.sort rrCompare W) i).exec - (Policy.rr.ran os q W).served k i := fun k => by
    have h := ((describes_rr hos hW).tracks k).exec_eq i hi'
    rwa [Policy.run, Outcome.state_map] at h
  rw [given, hexec, hexec]
  omega

/-- A process gets at most a unit per unit of time from its ready time on. -/
theorem served_le_of_ready (hi : i < W.length) :
    (Policy.rr.ran os q W).served c i ≤ (c : Int) - (entry (q.sort rrCompare W) i).ready ∨
      (Policy.rr.ran os q W).served c i = 0 := by
  have hi' : i < (q.sort rrCompare W).length := lt_of_lt_of_eq hi (q.length_sort _ _).symm
  have hT : WellFormed (q.sort rrCompare W) := Policy.table_wellFormed (P := .rr) (q := q) hW
  have hL := (roundRobin_ran (q := q) hos hW).legal
  have hready := hT.release_eq hi'
  rcases Nat.le_total c ((jobsOf (q.sort rrCompare W)).release i) with hle | hle
  · exact Or.inr (hL.served_eq_zero hle)
  · have hserved := (Policy.rr.ran os q W).served_le_add
      ((jobsOf (q.sort rrCompare W)).release i) (c - (jobsOf (q.sort rrCompare W)).release i) i
    rw [hL.served_eq_zero (Nat.le_refl _), Nat.add_sub_cancel' hle] at hserved
    exact Or.inl (by omega)

/-- So it is eligible for as long as it has units, at least. -/
theorem eligibleAt_of_ready (hi : i < W.length)
    (hready : (entry (q.sort rrCompare W) i).ready ≤ c)
    (hlt : c < (entry (q.sort rrCompare W) i).ready + (entry (q.sort rrCompare W) i).exec) :
    EligibleAt os q W c i := by
  have hi' : i < (q.sort rrCompare W).length := lt_of_lt_of_eq hi (q.length_sort _ _).symm
  have hT : WellFormed (q.sort rrCompare W) := Policy.table_wellFormed (P := .rr) (q := q) hW
  have hserved := served_le_of_ready (q := q) (c := c) hos hW hi
  have hrel := hT.release_eq hi'
  have hlen := hT.length_eq hi'
  exact (eligibleAt_iff hos hW c i).mpr ⟨mem_jobsOf.mpr hi', by omega, by omega⟩

/-- And it finishes that much later than it is ready. -/
theorem FinishedAt.le (h : FinishedAt os q W c i) : i < W.length ∧
    (entry (q.sort rrCompare W) i).ready + (entry (q.sort rrCompare W) i).exec ≤ c := by
  have hT : WellFormed (q.sort rrCompare W) := Policy.table_wellFormed (P := .rr) (q := q) hW
  have hend := (finishedAt_iff hos hW c i).mp h
  obtain ⟨u, -, hrun⟩ := Jobs.run_of_ended hend
  have hi' := mem_jobsOf.mp ((roundRobin_ran (q := q) hos hW).legal u i hrun).mem
  have hi : i < W.length := lt_of_lt_of_eq hi' (q.length_sort _ _)
  have hserved := served_le_of_ready (q := q) (c := c) hos hW hi
  have hdone := (Jobs.ended_eq_some.mp hend).2
  have hlen := hT.length_eq hi'
  have hpos := hT.jobs_length_pos hi'
  exact ⟨hi, by omega⟩

end

/-- Between two finishes, of two processes eligible all the time neither gets
    more than a quantum ahead of the other. -/
theorem shares_equal (os : Os) (q : Qsort) (W : List Process) (hos : os.Healthy)
    (hW : WellFormed W) (a c i j : ℕ) (hac : a ≤ c) (hi : EligibleAt os q W a i)
    (hi' : EligibleAt os q W c i) (hj : EligibleAt os q W a j) (hj' : EligibleAt os q W c j)
    (hno : ∀ b r, a < b → b ≤ c → ¬ FinishedAt os q W b r) :
    |given os q W a c i - given os q W a c j| ≤ 500 := by
  have hR := roundRobin_ran (q := q) hos hW
  obtain ⟨d, rfl⟩ := Nat.exists_eq_add_of_le hac
  -- a unit after which its process is done is followed by a finish
  have hunf : ∀ u r, a ≤ u → u < a + d → Policy.rr.ran os q W u = some r →
      (Policy.rr.ran os q W).served (u + 1) r < (jobsOf (q.sort rrCompare W)).length r := by
    intro u r hau hud hrun
    by_contra hend
    exact hno (u + 1) r (by omega) (by omega)
      ((finishedAt_iff hos hW _ r).mpr (Jobs.ended_eq_some.mpr ⟨hrun, not_lt.mp hend⟩))
  have hfair : ∀ x y, EligibleAt os q W a x → EligibleAt os q W (a + d) x →
      EligibleAt os q W a y → EligibleAt os q W (a + d) y →
        given os q W a (a + d) x ≤ given os q W a (a + d) y + 500 := by
    intro x y hx hx' hy hy'
    have hle := hR.shares (by decide) ((eligibleAt_iff hos hW _ x).mp hx)
      ((eligibleAt_iff hos hW _ x).mp hx') ((eligibleAt_iff hos hW _ y).mp hy)
      ((eligibleAt_iff hos hW _ y).mp hy') hunf
    rw [given_eq hos hW hx.1, given_eq hos hW hy.1]
    rw [interval] at hle
    omega
  have h₁ := hfair i j hi hi' hj hj'
  have h₂ := hfair j i hj hj' hi hi'
  rw [abs_le]
  omega

/-- In the test of README.md P1 and P2 share the processor from clock 500 on. -/
theorem shares_equal_readme :
    |given Os.counting Qsort.insertion readmeWorkload 500 700 0 -
      given Os.counting Qsort.insertion readmeWorkload 500 700 1| ≤ 500 := by
  have hos := Os.counting_healthy
  have hW : WellFormed readmeWorkload := by decide
  refine shares_equal Os.counting Qsort.insertion readmeWorkload hos hW 500 700 0 1 (by decide)
    (eligibleAt_of_ready hos hW (by decide) (by decide) (by decide))
    (eligibleAt_of_ready hos hW (by decide) (by decide) (by decide))
    (eligibleAt_of_ready hos hW (by decide) (by decide) (by decide))
    (eligibleAt_of_ready hos hW (by decide) (by decide) (by decide)) fun b r hb hb' hfin => ?_
  -- nobody can finish by clock 700
  obtain ⟨hr, hle⟩ := hfin.le hos hW
  have hlate : ∀ r < readmeWorkload.length, 1000 ≤
      (entry (Qsort.insertion.sort rrCompare readmeWorkload) r).ready +
        (entry (Qsort.insertion.sort rrCompare readmeWorkload) r).exec := by decide
  have := hlate r hr
  omega

/-- RR switches to every process, and at most once for each quantum it needs. -/
theorem switchCount_le (os : Os) (q : Qsort) (W : List Process) (hos : os.Healthy)
    (hW : WellFormed W) : ∃ k s, rrMain os q W k = .done s ∧ ∀ i < W.length,
      1 ≤ switchCount s.log i ∧
        (switchCount s.log i : Int) ≤ ((entry (q.sort rrCompare W) i).exec + 499) / 500 := by
  have hd := describes_rr (q := q) hos hW
  have hT : WellFormed (q.sort rrCompare W) := Policy.table_wellFormed (P := .rr) (q := q) hW
  obtain ⟨x, hx, -⟩ := hd.done _ (Nat.lt_succ_self (makespan W))
  obtain ⟨s, hs, rfl⟩ := Outcome.map_eq_done.mp hx
  have hswitches : s.log.switches = starts (Policy.rr.ran os q W) (makespan W) := hd.switches_eq hx
  refine ⟨_, s, hs, fun i hi => ?_⟩
  have hi' : i < (q.sort rrCompare W).length := lt_of_lt_of_eq hi (q.length_sort _ _).symm
  have hcount : switchCount s.log i = (Policy.rr.ran os q W).dispatches (makespan W) i := by
    rw [switchCount, hswitches, length_filter_starts]
  rw [hcount]
  constructor
  · refine Jobs.dispatches_pos ((hT.jobs_length_pos hi').trans_le ?_)
    exact hd.finished i (mem_jobsOf.mpr hi')
  · have hle := (roundRobin_ran (q := q) hos hW).dispatches_le (by decide) (makespan W) i
    rw [← hT.length_eq hi']
    rw [interval] at hle
    omega

theorem switchCount_le_readme : ∃ k s,
    rrMain Os.counting Qsort.insertion readmeWorkload k = .done s ∧
      ∀ i < readmeWorkload.length, 1 ≤ switchCount s.log i ∧ (switchCount s.log i : Int) ≤
        ((entry (Qsort.insertion.sort rrCompare readmeWorkload) i).exec + 499) / 500 :=
  switchCount_le Os.counting Qsort.insertion readmeWorkload Os.counting_healthy (by decide)

end Rr
end ProcSched
