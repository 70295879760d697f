/-
  ProcSched.Props.FirstCome

  FIFO in closed form.  With the table sorted, process `k` is started at
  `S k = max (C (k - 1)) ready` and ends at `C k = S k + exec`: these are the
  clocks of the context switches, of the units, of the `waitpid` calls and of the
  end of the loop.
-/

import ProcSched.Lib.Gantt
import ProcSched.Refine.Switches

namespace ProcSched
namespace Fifo

/-- `C k`: when the first `k` processes of the table are done. -/
def endTime (V : List Process) : ℕ → Int
  | 0 => 0
  | k + 1 => max (endTime V k) (entry V k).ready + (entry V k).exec

/-- `S k`: when the process at index `k` is started. -/
def startTime (V : List Process) (k : ℕ) : Int := max (endTime V k) (entry V k).ready

/-- The run of FIFO on the sorted table `V`. -/
structure FirstComeFirstServed (os : Os) (q : Qsort) (W V : List Process) : Prop where
  /-- `running` is `k` in the units of time from its start to its end -/
  running : ∀ k < V.length, ∀ t s, fifo os q W (t + 1) = .next s →
    (s.running = some k ↔ startTime V k ≤ t ∧ t < endTime V (k + 1))
  /-- and it is then that `proc[k].exec` is decremented -/
  units : ∀ k < V.length, ∀ t : ℕ, Policy.fifo.ran os q W t = some k ↔
    startTime V k ≤ t ∧ t < endTime V (k + 1)
  /-- one context switch for each process, in table order; the finish is counted
      and waited for at the end; the clock stops at the last end -/
  left : ∃ m s, fifo os q W m = .done s ∧ (s.now : Int) = endTime V V.length ∧
    s.log.switches.map (fun e => ((e.1 : Int), e.2)) =
      (List.range V.length).map (fun k => (startTime V k, k)) ∧
    s.log.finishes.map (fun e => ((e.1 : Int), e.2)) =
      (List.range V.length).map (fun k => (endTime V (k + 1), k)) ∧
    s.log.reaped.map (fun e => ((e.1 : Int), e.2)) =
      (List.range V.length).map fun k => (endTime V (k + 1), (entry s.proc k).pid)

/-! ## Lists by their clocks -/

theorem mem_starts {σ : Schedule ℕ} {t c i : ℕ} : (c, i) ∈ starts σ t ↔ c < t ∧ σ.Starts c i := by
  induction t with
  | zero => simp [starts]
  | succ t ih =>
      have hnew : (c, i) ∈ (if σ.prev t ≠ σ t then (σ t).toList.map fun i => (t, i) else []) ↔
          c = t ∧ σ.Starts t i := by
        by_cases hsame : σ.prev t = σ t
        · rw [if_neg fun hne => hne hsame]
          refine iff_of_false List.not_mem_nil ?_
          rintro ⟨rfl, hrun, hprev⟩
          exact hprev (hsame.trans hrun)
        · rw [if_pos hsame]
          simp only [List.mem_map, Option.mem_toList, Prod.mk.injEq, exists_eq_right_right]
          constructor
          · rintro ⟨hrun, rfl⟩
            exact ⟨rfl, hrun, fun hprev => hsame (hprev.trans hrun.symm)⟩
          · rintro ⟨rfl, hrun, -⟩
            exact ⟨hrun, rfl⟩
      rw [starts_succ, List.mem_append, ih, hnew]
      constructor
      · rintro (⟨hlt, hs⟩ | ⟨rfl, hs⟩)
        · exact ⟨by omega, hs⟩
        · exact ⟨Nat.lt_succ_self c, hs⟩
      · rintro ⟨hlt, hs⟩
        rcases Nat.lt_succ_iff_lt_or_eq.mp hlt with hlt | rfl
        · exact Or.inl ⟨hlt, hs⟩
        · exact Or.inr ⟨rfl, hs⟩

theorem starts_sorted (σ : Schedule ℕ) (t : ℕ) :
    (starts σ t).Pairwise fun e e' => e.1 < e'.1 := by
  induction t with
  | zero => exact List.Pairwise.nil
  | succ t ih =>
      rw [starts_succ, List.pairwise_append]
      refine ⟨ih, ?_, ?_⟩
      · split
        · cases σ t <;> simp
        · exact List.Pairwise.nil
      · rintro ⟨c, i⟩ he ⟨c', i'⟩ he'
        have hlt := (mem_starts.mp he).1
        split at he'
        · obtain ⟨j, -, hj⟩ := List.mem_map.mp he'
          rw [Prod.mk.injEq] at hj
          simp only
          omega
        · exact absurd he' List.not_mem_nil

/-- A list in the order of its clocks is known by its members. -/
theorem eq_of_clocks {l l' : List (ℕ × ℕ)} (h : l.Pairwise fun e e' => e.1 < e'.1)
    (h' : l'.Pairwise fun e e' => e.1 < e'.1) (hmem : ∀ e, e ∈ l ↔ e ∈ l') : l = l' := by
  have hanti : Std.Antisymm fun e e' : ℕ × ℕ => e.1 < e'.1 :=
    ⟨fun _ _ hab hba => absurd hab (Nat.lt_asymm hba)⟩
  have hirrefl : Std.Irrefl fun e e' : ℕ × ℕ => e.1 < e'.1 := ⟨fun _ => Nat.lt_irrefl _⟩
  exact h.eq_of_mem_iff h' hmem

section

variable {W : List Process} {σ : Schedule ℕ} (hF : (jobsOf W).Fcfs σ)
  (hsorted : ∀ i j, i ≤ j → j < W.length → (jobsOf W).release i ≤ (jobsOf W).release j)
  (hpos : ∀ i < W.length, 0 < (jobsOf W).length i)
include hF hsorted hpos

/-- The finish of job `k` is noticed at its end. -/
theorem ended_iff {k t : ℕ} (hk : k < W.length) :
    (jobsOf W).ended σ t = some k ↔ t = (jobsOf W).fcfsEnd (k + 1) := by
  -- `k` is run last in the unit before its end
  have hiff := fun t => hF.run_iff (t := t) rfl hsorted hpos hk
  have hdone := fun t => hF.finished_iff (t := t) rfl hsorted hpos hk
  have hone := hpos k hk
  have hend := (jobsOf W).fcfsEnd_succ k
  cases t with
  | zero =>
      refine iff_of_false (fun hended => ?_) (by omega)
      simp [Jobs.ended] at hended
  | succ u =>
      rw [Jobs.ended_eq_some, Schedule.prev_succ, hiff, hdone]
      omega

/-- The jobs are started in their order, each once. -/
theorem starts_eq : starts σ ((jobsOf W).fcfsEnd W.length) =
    (List.range W.length).map fun k => ((jobsOf W).fcfsStart k, k) := by
  refine eq_of_clocks (starts_sorted _ _) ?_ ?_
  · rw [List.pairwise_map]
    refine List.pairwise_lt_range.imp_of_mem fun {j k} hj _ hjk => ?_
    exact Jobs.fcfsStart_lt (hpos j (List.mem_range.mp hj)) hjk
  · rintro ⟨c, i⟩
    rw [mem_starts]
    simp only [List.mem_map, List.mem_range, Prod.mk.injEq, exists_eq_right_right]
    constructor
    · rintro ⟨-, hstart⟩
      have hi := mem_jobsOf.mp (hF.legal c i hstart.1).mem
      exact ⟨hi, ((hF.starts_iff rfl hsorted hpos hi).mp hstart).symm⟩
    · rintro ⟨hi, rfl⟩
      have hend := (jobsOf W).fcfsEnd_succ i
      have hlast := (jobsOf W).fcfsEnd_mono (show i + 1 ≤ W.length from hi)
      have hone := hpos i hi
      exact ⟨by omega, hF.starts rfl hsorted hpos hi⟩

/-- They end in their order. -/
theorem endings_eq : endings W σ ((jobsOf W).fcfsEnd W.length + 1) =
    (List.range W.length).map fun k => ((jobsOf W).fcfsEnd (k + 1), k) := by
  refine eq_of_clocks (endings_sorted _ _ _) ?_ ?_
  · rw [List.pairwise_map]
    refine List.pairwise_lt_range.imp_of_mem fun {j k} _ hk hjk => ?_
    exact Jobs.fcfsEnd_lt (hpos k (List.mem_range.mp hk)) hjk
  · rintro ⟨c, i⟩
    rw [mem_endings]
    simp only [List.mem_map, List.mem_range, Prod.mk.injEq, exists_eq_right_right]
    constructor
    · rintro ⟨-, hended⟩
      obtain ⟨u, -, hrun⟩ := Jobs.run_of_ended hended
      have hi := mem_jobsOf.mp (hF.legal u i hrun).mem
      exact ⟨hi, ((ended_iff hF hsorted hpos hi).mp hended).symm⟩
    · rintro ⟨hi, rfl⟩
      have hlast := (jobsOf W).fcfsEnd_mono (show i + 1 ≤ W.length from hi)
      exact ⟨by omega, (ended_iff hF hsorted hpos hi).mpr rfl⟩

end

/-! ## The run -/

section

variable {W : List Process} (hW : WellFormed W)
include hW

/-- The recurrence on the table is that of its jobs. -/
theorem fcfsEnd_eq {k : ℕ} (hk : k ≤ W.length) : ((jobsOf W).fcfsEnd k : Int) = endTime W k := by
  induction k with
  | zero => rfl
  | succ k ih =>
      have hrel := hW.release_eq hk
      have hlength := hW.length_eq hk
      have hend := ih (by omega)
      rw [Jobs.fcfsEnd_succ, Jobs.fcfsStart, endTime]
      push_cast
      rw [hend, hrel, hlength]

theorem fcfsStart_eq {k : ℕ} (hk : k < W.length) :
    ((jobsOf W).fcfsStart k : Int) = startTime W k := by
  rw [Jobs.fcfsStart, startTime, ← fcfsEnd_eq hW hk.le, ← hW.release_eq hk]
  push_cast
  rfl

end

section

variable {os : Os} {q : Qsort} {W : List Process} (hos : os.Healthy) (hW : WellFormed W)
include hW

theorem sort_wellFormed : WellFormed (q.sort compare W) :=
  Policy.table_wellFormed (P := .fifo) (q := q) hW

/-- The table is in ready order, so its jobs are numbered in release order. -/
theorem release_sorted (i j : ℕ) (hij : i ≤ j) (hj : j < (q.sort compare W).length) :
    (jobsOf (q.sort compare W)).release i ≤ (jobsOf (q.sort compare W)).release j := by
  have hs := Policy.table_sorted (P := .fifo) (q := q) hW (by decide)
  exact Int.toNat_le_toNat (ready_le_of_le hs hij hj)

theorem length_pos (i : ℕ) (hi : i < (q.sort compare W).length) :
    0 < (jobsOf (q.sort compare W)).length i :=
  (sort_wellFormed hW).jobs_length_pos hi

include hos

theorem fcfs_ran : (jobsOf (q.sort compare W)).Fcfs (Policy.fifo.ran os q W) :=
  Policy.law (P := .fifo) hos hW fun h => by cases h

theorem describes_fifo : Describes (Policy.fifo.run os q W) (q.sort compare W)
    (fcfsLaw (q.sort compare W)) (Policy.fifo.ran os q W) 1 (makespan W) :=
  Policy.describes (P := .fifo) hos hW fun h => by cases h

/-- The units of a process. -/
theorem ran_iff {k : ℕ} (hk : k < (q.sort compare W).length) (t : ℕ) :
    Policy.fifo.ran os q W t = some k ↔
      startTime (q.sort compare W) k ≤ t ∧ t < endTime (q.sort compare W) (k + 1) := by
  have hT : WellFormed (q.sort compare W) := sort_wellFormed hW
  have hend := fcfsEnd_eq hT (k := k + 1) hk
  have hstart := fcfsStart_eq hT hk
  rw [(fcfs_ran hos hW).run_iff rfl (release_sorted hW) (length_pos hW) hk]
  omega

/-- The clock stops at the last end. -/
theorem makespan_eq :
    makespan W = (jobsOf (q.sort compare W)).fcfsEnd (q.sort compare W).length := by
  have hd := describes_fifo (q := q) hos hW
  have hiff := fun t => (fcfs_ran hos hW).finished_iff_fcfsEnd (t := t) rfl
    (release_sorted (q := q) hW) (length_pos hW)
  have hle := (hiff _).mp hd.finished
  -- the run is over when all jobs are finished, and not before
  have hge : ¬ (jobsOf (q.sort compare W)).fcfsEnd (q.sort compare W).length < makespan W :=
    fun hlt => hd.unfinished _ hlt ((hiff _).mpr (Nat.le_refl _))
  omega

end

/-- FIFO is first come, first served. -/
theorem first_come_first_served (os : Os) (q : Qsort) (W : List Process) (hos : os.Healthy)
    (hW : WellFormed W) : FirstComeFirstServed os q W (q.sort compare W) where
  running k hk t s hnext := by
    have hnext : Outcome.run (discipline.step os) (start os q W) (t + 1) = .next s := hnext
    rw [← ran_iff hos hW hk t, Policy.ran_fifo hos hW, Loop.followed, hnext]
  units k hk t := ran_iff hos hW hk t
  left := by
    have hT : WellFormed (q.sort compare W) := sort_wellFormed hW
    have hd := describes_fifo (q := q) hos hW
    obtain ⟨s', hs', hchild⟩ := Policy.exists_children hos (P := .fifo) (q := q) (by decide) hW
    have hclose := hd.closes hs'
    have hswitches := hd.switches_eq hs'
    have hfinishes := hd.finishes_eq rfl hs'
    obtain ⟨s, hdone, rfl⟩ := Outcome.map_eq_done.mp hs'
    have hwaits : s.log.reaped = (endings (q.sort compare W) (Policy.fifo.ran os q W)
        (makespan W + 1)).map fun e => (e.1, (entry s.proc e.2).pid) := hchild.reaped
    -- the lists of the run, by the starts and the ends of the jobs
    have hend := makespan_eq (q := q) hos hW
    have hstarts := starts_eq (fcfs_ran (q := q) hos hW) (release_sorted hW) (length_pos hW)
    have hendings := endings_eq (fcfs_ran (q := q) hos hW) (release_sorted hW) (length_pos hW)
    rw [← hend] at hstarts hendings
    have hclock : ∀ k ∈ List.range (q.sort compare W).length,
        ((jobsOf (q.sort compare W)).fcfsEnd (k + 1) : Int) = endTime (q.sort compare W) (k + 1) :=
      fun k hk => fcfsEnd_eq hT (k := k + 1) (List.mem_range.mp hk)
    refine ⟨makespan W + 1, s, hdone, ?_, ?_, ?_, ?_⟩
    · rw [show s.now = makespan W from hclose.clock, hend, fcfsEnd_eq hT (Nat.le_refl _)]
    · rw [show s.log.switches = _ from hswitches, hstarts, List.map_map]
      refine List.map_congr_left fun k hk => ?_
      simp only [Function.comp_apply, fcfsStart_eq hT (List.mem_range.mp hk)]
    · rw [show s.log.finishes = _ from hfinishes, hendings, List.map_map]
      refine List.map_congr_left fun k hk => ?_
      simp only [Function.comp_apply, hclock k hk]
    · rw [hwaits, hendings, List.map_map, List.map_map]
      refine List.map_congr_left fun k hk => ?_
      simp only [Function.comp_apply, hclock k hk]

theorem first_come_first_served_readme :
    FirstComeFirstServed Os.counting Qsort.insertion readmeWorkload
      (Qsort.insertion.sort compare readmeWorkload) :=
  first_come_first_served Os.counting Qsort.insertion readmeWorkload Os.counting_healthy
    (by decide)

end Fifo
end ProcSched
