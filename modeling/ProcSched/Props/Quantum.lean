/-
  ProcSched.Props.Quantum

  The quantum of RR.  `time_last` is set on a switch only, so a process that goes
  on alone keeps the boundaries of its last dispatch: it gives way after a whole
  number of quanta, and after one if somebody else is there.
-/

import ProcSched.Props.Integrity
import ProcSched.Props.Rotation
import ProcSched.Refine.Phases

namespace ProcSched
namespace Rr

/-- In the iteration with clock `c`, the finish test leaves `proc[i]` running and
    the context switch puts `proc[j]` in its place. -/
def ReplacedAt (os : Os) (q : Qsort) (W : List Process) (c i j : ℕ) : Prop :=
  ∃ s s' s'', rrMain os q W c = .next s ∧ discipline.arrive os s = .next s' ∧
    discipline.contextSwitch os s' = .next s'' ∧ s'.running = some i ∧ s''.running = some j ∧ i ≠ j

/-- Clock `a` is that of the last dispatch of `proc[i]` before clock `c`. -/
def LastDispatch (os : Os) (q : Qsort) (W : List Process) (c i a : ℕ) : Prop :=
  DispatchedAt os q W a i ∧ a < c ∧ ∀ b, a < b → b < c → ¬ DispatchedAt os q W b i

/-- The units `proc[i]` has run between the clocks `a` and `c`. -/
def unitsBetween (os : Os) (q : Qsort) (W : List Process) (a c i : ℕ) : ℕ :=
  (((rrMain os q W c).state.log.stamps (.decrement i)).filter fun t => a ≤ t).length

/-- `proc[j]` is the first eligible entry in cyclic order after index `i`. -/
def NextEligible (os : Os) (q : Qsort) (W : List Process) (c i j : ℕ) : Prop :=
  ∃ d, 1 ≤ d ∧ d ≤ W.length ∧ j = (i + d) % W.length ∧ EligibleAt os q W c j ∧
    ∀ e, 1 ≤ e → e < d → ¬ EligibleAt os q W c ((i + e) % W.length)

theorem length_range_filter_le (a c : ℕ) :
    ((List.range c).filter fun t => a ≤ t).length = c - a := by
  induction c with
  | zero => rw [Nat.zero_sub]; rfl
  | succ c ih =>
      rw [List.range_succ, List.filter_append, List.length_append, ih]
      by_cases hac : a ≤ c
      · rw [List.filter_singleton, decide_eq_true hac, cond_true, List.length_singleton]
        omega
      · rw [List.filter_singleton, decide_eq_false hac, cond_false, List.length_nil]
        omega

section

variable {os : Os} {q : Qsort} {W : List Process} {a c i j : ℕ} (hos : os.Healthy)
  (hW : WellFormed W)
include hos hW

/-- A replacement, in terms of who is carried over and who runs. -/
theorem ReplacedAt.run (h : ReplacedAt os q W c i j) :
    (jobsOf (q.sort rrCompare W)).current (Policy.rr.ran os q W) c = some i ∧
      Policy.rr.ran os q W c = some j ∧ j ≠ i := by
  have hT : WellFormed (q.sort rrCompare W) := Policy.table_wellFormed (P := .rr) (q := q) hW
  obtain ⟨s, s', s'', hs, harr, hswitch, hi, hj, hij⟩ := h
  obtain ⟨log, hlog, hstart⟩ := start_ok hos q W
  have hC := Loop.atChoice_of_arrive (obeys hos hT) hT hlog.marks hstart hs harr
  have hrun := Loop.followed_eq hs harr hswitch
  rw [Policy.ran_rr hos hW]
  exact ⟨hC.running.symm.trans hi, hrun.trans hj, fun h => hij h.symm⟩

theorem lastDispatch_of_prev (hprev : (Policy.rr.ran os q W).prev c = some i) :
    LastDispatch os q W c i ((Policy.rr.ran os q W).lastStart c) := by
  obtain ⟨hlt, hstart, hrun⟩ := Schedule.starts_lastStart hprev
  refine ⟨(dispatchedAt_iff hos hW _ i).mpr hstart, hlt, fun b hab hbc hb => ?_⟩
  -- between its last start and `c` the process ran in the unit before `b` as well
  obtain ⟨b, rfl⟩ : ∃ b', b = b' + 1 := ⟨b - 1, by omega⟩
  exact ((dispatchedAt_iff hos hW _ i).mp hb).2 (hrun b (by omega) (by omega))

/-- A process that runs through from clock `a` has had a unit at every clock since. -/
theorem unitsBetween_of_run (hc : c ≤ makespan W)
    (hrun : ∀ t, a ≤ t → t < c → Policy.rr.ran os q W t = some i) :
    unitsBetween os q W a c i = c - a := by
  obtain ⟨s, hs, hshow⟩ := (describes_rr hos hW).next c hc
  have hstate : (rrMain os q W c).state.log = s.log := by
    have := congrArg Outcome.state hs
    rw [Policy.run, Outcome.state_map, Outcome.state_next] at this
    exact congrArg Snapshot.log this
  -- no decrement is missing from the log at the top of the iteration
  have hstamps : stampsOf s.log.marks (.decrement i) =
      (List.range c).filter fun t => Policy.rr.ran os q W t = some i := by
    have htrace : stampsOf (trace (q.sort rrCompare W) (Policy.rr.ran os q W) 1 c) (.decrement i) =
        (List.range c).filter fun t => Policy.rr.ran os q W t = some i := stampsOf_decrement_trace
    rw [← htrace, ← hshow.marks, stampsOf_append, stampsOf_eq_nil (l := finishMarks _ _),
      List.append_nil]
    intro t ht
    obtain ⟨-, r, -, hr⟩ := mem_finishMarks.mp ht
    cases hr
  have hall : ∀ t ∈ List.range c, (decide (a ≤ t) &&
      decide (Policy.rr.ran os q W t = some i)) = decide (a ≤ t) := by
    intro t ht
    by_cases hat : a ≤ t
    · simp [hat, hrun t hat (List.mem_range.mp ht)]
    · simp [hat]
  rw [unitsBetween, hstate, stamps_eq, hstamps, List.filter_filter, List.filter_congr hall,
    length_range_filter_le]

/-- The eligible job next to `i` is met first on the way round the table. -/
theorem nextEligible_of_nextAfter (hi : i < W.length)
    (hj : (jobsOf (q.sort rrCompare W)).Eligible (Policy.rr.ran os q W) c j)
    (h : (jobsOf (q.sort rrCompare W)).NextAfter (Policy.rr.ran os q W) c i j) :
    NextEligible os q W c i j := by
  have hj' := (eligibleAt_iff hos hW c j).mpr hj
  have hlt : j < W.length := hj'.1
  rcases h with ⟨hij, hleast⟩ | ⟨hle, hleast⟩
  -- `j` is above `i`: the way to it does not go past the end of the table
  · refine ⟨j - i, by omega, by omega, ?_, hj', fun e he hed hel => ?_⟩
    · rw [Nat.add_sub_cancel' hij.le, Nat.mod_eq_of_lt hlt]
    · rw [Nat.mod_eq_of_lt (by omega)] at hel
      have := hleast _ ((eligibleAt_iff hos hW c _).mp hel) (by omega)
      omega
  -- `j` is not above `i`: the way goes past the end, and nobody above `i` is eligible
  · refine ⟨W.length - i + j, by omega, by omega, ?_, hj', fun e he hed hel => ?_⟩
    · rw [show i + (W.length - i + j) = j + W.length by omega, Nat.add_mod_right,
        Nat.mod_eq_of_lt hlt]
    · have hbetween := hleast _ ((eligibleAt_iff hos hW c _).mp hel)
      rcases Nat.lt_or_ge (i + e) W.length with hin | hout
      · rw [Nat.mod_eq_of_lt hin] at hbetween
        omega
      · rw [Nat.mod_eq_sub_mod hout, Nat.mod_eq_of_lt (by omega)] at hbetween
        omega

end

/-- An unfinished process gives way after a whole number of quanta, to the next
    eligible one in cyclic order, and nobody runs for more than a quantum while
    somebody else is eligible in every unit. -/
theorem quantum_kept (os : Os) (q : Qsort) (W : List Process) (hos : os.Healthy)
    (hW : WellFormed W) :
    (∀ c i j, ReplacedAt os q W c i j →
      (∃ a m, LastDispatch os q W c i a ∧ 1 ≤ m ∧ unitsBetween os q W a c i = 500 * m) ∧
        NextEligible os q W c i j) ∧
      ¬ ∃ a i, ∀ t, a ≤ t → t < a + 501 → Policy.rr.ran os q W t = some i ∧
        ∃ j, j ≠ i ∧ EligibleAt os q W t j := by
  have hR : (jobsOf (q.sort rrCompare W)).RoundRobin 500 (Policy.rr.ran os q W) :=
    roundRobin_ran hos hW
  constructor
  · intro c i j h
    obtain ⟨hcur, hrun, hji⟩ := h.run hos hW
    obtain ⟨⟨m, hm, hc⟩, hnext⟩ := hR.replaced hcur hrun hji
    have hprev := (Jobs.current_eq_some.mp hcur).1
    have hel := hR.legal.eligible_current hcur
    have hlen : (q.sort rrCompare W).length = W.length := q.length_sort _ _
    have hi := mem_jobsOf.mp hel.mem
    refine ⟨⟨(Policy.rr.ran os q W).lastStart c, m, lastDispatch_of_prev hos hW hprev, hm, ?_⟩,
      nextEligible_of_nextAfter hos hW (by omega) (hR.legal c j hrun) hnext⟩
    obtain ⟨-, -, hthrough⟩ := Schedule.starts_lastStart hprev
    rw [unitsBetween_of_run hos hW ((describes_rr hos hW).lt_of_run hrun).le hthrough]
    omega
  · rintro ⟨a, i, h⟩
    refine hR.not_stretch (by decide) (u := a) (i := i) fun t hat hta => ?_
    obtain ⟨hrun, j, hji, hj⟩ := h t hat (by omega)
    exact ⟨hrun, j, hji, (eligibleAt_iff hos hW t j).mp hj⟩

theorem quantum_kept_readme :
    (∀ c i j, ReplacedAt Os.counting Qsort.insertion readmeWorkload c i j →
      (∃ a m, LastDispatch Os.counting Qsort.insertion readmeWorkload c i a ∧ 1 ≤ m ∧
          unitsBetween Os.counting Qsort.insertion readmeWorkload a c i = 500 * m) ∧
        NextEligible Os.counting Qsort.insertion readmeWorkload c i j) ∧
      ¬ ∃ a i, ∀ t, a ≤ t → t < a + 501 →
        Policy.rr.ran Os.counting Qsort.insertion readmeWorkload t = some i ∧
          ∃ j, j ≠ i ∧ EligibleAt Os.counting Qsort.insertion readmeWorkload t j :=
  quantum_kept Os.counting Qsort.insertion readmeWorkload Os.counting_healthy (by decide)

end Rr
end ProcSched
