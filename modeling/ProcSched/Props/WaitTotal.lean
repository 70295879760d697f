/-
  ProcSched.Props.WaitTotal

  What RR prints as the waiting time.  At a finish `proc[running].exec` is 0, so
  `time_now - ready - exec` is the time from the arrival of the process to its
  completion: `wait` is the total of the response times, which exceeds the
  waiting time by all units of the workload, and it is kept in an `int`.
-/

import ProcSched.Lib.Response
import ProcSched.Props.Optimal
import ProcSched.Refine.Calls

namespace ProcSched
namespace Rr

/-- `RR_main` leaves its loop, each process having completed, with `wait` equal
    to the sum of completion time less ready time less the `exec` of the file. -/
def ReportsWaiting (os : Os) (q : Qsort) (W : List Process) : Prop :=
  ∃ k s, ∃ C : ℕ → ℕ, rrMain os q W k = .done s ∧
    (∀ i < W.length, Policy.rr.CompletesAt os q W i (C i)) ∧
    s.wait = ∑ i ∈ Finset.range W.length, ((C i : Int) -
      (entry (q.sort rrCompare W) i).ready - (entry (q.sort rrCompare W) i).exec)

/-! ## The accumulator -/

/-- Response times of the finishes in `E`. -/
def responses (V : List Process) (E : List (ℕ × ℕ)) : List Int :=
  E.map fun e => (e.1 : Int) - (entry V e.2).ready

theorem responses_append (V : List Process) (E E' : List (ℕ × ℕ)) :
    responses V (E ++ E') = responses V E ++ responses V E' := List.map_append

/-- A sum kept in an `int` is the sum with wrap-around. -/
theorem int32_add (x y : Int) : int32 (int32 x + y) = int32 (x + y) := by
  rw [int32, int32, int32, Int.bmod_add_bmod]

section

variable {os : Os} {V : List Process} {law : ChoiceLaw} {σ : Schedule ℕ} {k : ℕ}
  {s s' : Loop.State}

/-- The finish test adds the response time of the process that has ended. -/
theorem wait_finishTest (hV : WellFormed V) (hI : Loop.Inv discipline V σ k s)
    (hB : Before V law σ k) (h : s.wait = int32 (responses V (endings V σ k)).sum) :
    (discipline.finishTest s).state.wait = int32 (responses V (endings V σ (k + 1))).sum := by
  rcases Loop.finishTest_cases (d := discipline) s with ⟨htest, hkeep⟩ | ⟨r, hr, hexec, htest⟩
  · rw [htest, endings_succ, hI.ended_none hB hV hkeep]
    simpa using h
  · have hlt := (hB.prev_released (hI.running.symm.trans hr)).1
    have hwait : (discipline.reap s r).wait =
        int32 (s.wait + s.now - (entry s.proc r).ready - (entry s.proc r).exec) := rfl
    -- `exec` is 0 here, so what is added is the time since the ready time
    have hreap : (discipline.reap s r).wait =
        int32 (responses V (endings V σ k ++ [(k, r)])).sum := by
      rw [hwait, hexec, h, hI.tracks.ready_eq r hlt, hI.now, responses_append, List.sum_append,
        ← int32_add, Int.sub_zero, Int.add_sub_assoc]
      simp [responses]
    rw [endings_succ, hI.ended_some hB hV hr hexec, htest]
    split <;> exact hreap

theorem wait_forkReady (h : discipline.forkReady os s = .next s') : s'.wait = s.wait := by
  obtain ⟨proc, log, -, rfl⟩ := Loop.forkReady_eq_next.mp h
  rfl

theorem wait_contextSwitch (h : discipline.contextSwitch os s = .next s') : s'.wait = s.wait := by
  rcases Loop.contextSwitch_cases h with ⟨-, rfl⟩ | ⟨i, -, -, rfl⟩ | ⟨i, -, -, rfl⟩ <;> rfl

theorem wait_unit (s : Loop.State) : s.unit.wait = s.wait := by
  rw [Loop.State.unit]
  cases s.running <;> rfl

variable {o : Outcome Loop.State} {log : Log}

/-- `wait` at the top of every iteration. -/
theorem wait_of_next (hd : discipline.Obeys os V law) (hV : WellFormed V) (hlog : log.marks = [])
    (ho : o = .next (Loop.State.initial V log)) :
    ∀ k s, Outcome.run (discipline.step os) o k = .next s →
      s.wait = int32 (responses V (endings V (Loop.followed discipline os o) k)).sum := by
  refine Outcome.run_invariant (fun s hs => ?_) fun k s s' hs _ hstep h => ?_
  · obtain rfl := Outcome.next.inj (ho.symm.trans hs)
    rfl
  · obtain ⟨hI, hB⟩ := Loop.inv_of_next hd hV hlog ho hs
    obtain ⟨s₁, s₂, s₃, htest, hfork, hswitch, rfl⟩ := Loop.step_cases hstep
    have htested := wait_finishTest hV hI hB h
    rw [htest, Outcome.state_next] at htested
    rw [wait_unit, wait_contextSwitch hswitch, wait_forkReady hfork, htested]

/-- `wait` when the loop is left. -/
theorem wait_of_done (hd : discipline.Obeys os V law) (hV : WellFormed V) (hlog : log.marks = [])
    (ho : o = .next (Loop.State.initial V log)) :
    ∃ s, Outcome.run (discipline.step os) o (makespan V + 1) = .done s ∧ s.wait = int32
      (responses V (endings V (Loop.followed discipline os o) (makespan V + 1))).sum := by
  obtain ⟨T, hC, hreach, s, hs, -⟩ := Loop.run_spec hd hV hlog ho
  obtain rfl := hC.eq_makespan hV
  obtain ⟨t, ht, hI, hB⟩ := hreach _ (Nat.le_refl _)
  have hstep : discipline.step os t = .done s := by
    rw [← Outcome.run_succ_of_next ht, hs]
  have htested := wait_finishTest hV hI hB (wait_of_next hd hV hlog ho _ t ht)
  rw [Loop.step_eq_done.mp hstep] at htested
  exact ⟨s, hs, htested⟩

/-- The finishes of a complete schedule are the completions of its jobs. -/
theorem sum_responses {T : ℕ} {C : ℕ → ℕ} (hL : (jobsOf V).Legal σ) (hV : WellFormed V)
    (hC : (jobsOf V).CompletesAt σ C) (hT : (jobsOf V).Finished σ T) :
    (responses V (endings V σ (T + 1))).sum =
      ∑ i ∈ Finset.range V.length, ((C i : Int) - (entry V i).ready) := by
  -- every finish is noticed when its job completes, and every job has one
  have hmem : ∀ e ∈ endings V σ (T + 1), e.2 < V.length ∧ e.1 = C e.2 := by
    rintro ⟨c, i⟩ he
    obtain ⟨-, hend⟩ := mem_endings.mp he
    obtain ⟨u, -, hrun⟩ := Jobs.run_of_ended hend
    have hi := (hL u i hrun).mem
    have hiff : ∀ t, c ≤ t ↔ C i ≤ t := fun t =>
      (le_iff_of_ended hL hend).trans (hC i hi t).symm
    exact ⟨mem_jobsOf.mp hi, Nat.le_antisymm ((hiff _).mpr (Nat.le_refl _))
      ((hiff _).mp (Nat.le_refl _))⟩
  have hall : ((endings V σ (T + 1)).map Prod.snd).toFinset = Finset.range V.length := by
    ext i
    rw [List.mem_toFinset, List.mem_map, Finset.mem_range]
    constructor
    · rintro ⟨e, he, rfl⟩
      exact (hmem e he).1
    · intro hi
      obtain ⟨c, hc, hend⟩ := Jobs.exists_ended (hV.jobs_length_pos hi)
        (hT i (mem_jobsOf.mpr hi))
      exact ⟨(c, i), mem_endings.mpr ⟨Nat.lt_succ_of_le hc, hend⟩, rfl⟩
  have hresponses : responses V (endings V σ (T + 1)) =
      ((endings V σ (T + 1)).map Prod.snd).map fun i => (C i : Int) - (entry V i).ready := by
    rw [List.map_map]
    refine List.map_congr_left fun e he => ?_
    rw [(hmem e he).2]
    rfl
  rw [hresponses, ← hall, List.sum_toFinset _ (endings_nodup hL _)]

end

/-- A waiting time is not what an `int` keeps of the response times: the two
    differ by the units of the workload, which are more than none and fewer than
    there are values of an `int`. -/
theorem int32_ne_sub {x y : Int} (hpos : 0 < y) (hlt : y ≤ intMax) : int32 x ≠ x - y := by
  intro heq
  -- the two differ by a multiple of the modulus, and `y` is too small for that
  obtain ⟨c, hc⟩ := Int.dvd_bmod_sub_self (x := x) (m := 0x100000000)
  rw [int32] at heq
  rw [heq] at hc
  rw [intMax] at hlt
  omega

theorem sum_exec {V : List Process} (hV : WellFormed V) :
    0 < ∑ i ∈ Finset.range V.length, (entry V i).exec ∧
      ∑ i ∈ Finset.range V.length, (entry V i).exec ≤ intMax := by
  have hsum : ∑ i ∈ Finset.range V.length, (entry V i).exec = (V.map Process.exec).sum :=
    sum_range_entry Process.exec V
  have hle := hV.bounded _ (entry_mem hV.length_pos)
  have hready := hV.ready_nonneg _ (entry_mem hV.length_pos)
  refine ⟨Finset.sum_pos (fun i hi => ?_) ?_, by omega⟩
  · have := hV.exec_pos _ (entry_mem (Finset.mem_range.mp hi))
    omega
  · exact Finset.nonempty_range_iff.mpr hV.length_pos.ne'

section

variable {os : Os} {q : Qsort} {W : List Process} (hos : os.Healthy) (hW : WellFormed W)
include hos hW

theorem describes_rr_run : Describes (Policy.rr.run os q W) (q.sort rrCompare W)
    (Policy.rr.choiceLaw (q.sort rrCompare W)) (Policy.rr.ran os q W) 1 (makespan W) :=
  Policy.describes (P := .rr) hos hW fun h => by cases h

/-- RR leaves its loop with the total of the response times. -/
theorem exists_wait {C : ℕ → ℕ} (hC : ∀ i < W.length, Policy.rr.CompletesAt os q W i (C i)) :
    ∃ k s, rrMain os q W k = .done s ∧ s.wait = int32 (∑ i ∈ Finset.range W.length,
      ((C i : Int) - (entry (q.sort rrCompare W) i).ready)) := by
  have hT : WellFormed (q.sort rrCompare W) := Policy.table_wellFormed (P := .rr) (q := q) hW
  have hd := describes_rr_run (q := q) hos hW
  have hJ := (Policy.completesAt_iff (P := .rr) hos hW fun h => by cases h).mp hC
  have hend : makespan (q.sort rrCompare W) = makespan W :=
    makespan_perm hW (Policy.rr.table_perm q W)
  obtain ⟨log, hlog, hstart⟩ := start_ok hos q W
  obtain ⟨s, hs, hwait⟩ := wait_of_done (obeys hos hT) hT hlog.marks hstart
  rw [hend] at hs hwait
  rw [← Policy.ran_rr hos hW, sum_responses hd.legal hT hJ hd.finished, q.length_sort] at hwait
  exact ⟨_, s, hs, hwait⟩

theorem exists_completesAt : ∃ C : ℕ → ℕ,
    ∀ i < W.length, Policy.rr.CompletesAt os q W i (C i) := by
  obtain ⟨C, hC⟩ := Policy.exists_completesAt (P := .rr) (q := q) hos hW fun h => by cases h
  exact ⟨C, (Policy.completesAt_iff hos hW fun h => by cases h).mpr hC⟩

/-- That is not the total of the waiting times. -/
theorem not_reportsWaiting : ¬ ReportsWaiting os q W := by
  rintro ⟨k', s', C, hs', hC, heq⟩
  obtain ⟨k, s, hs, hwait⟩ := exists_wait hos hW hC
  obtain rfl := Outcome.run_done_unique hs hs'
  obtain ⟨hpos, hle⟩ := sum_exec (Policy.table_wellFormed (P := .rr) (q := q) hW)
  rw [Policy.length_table] at hpos hle
  refine int32_ne_sub hpos hle (hwait.symm.trans (heq.trans ?_))
  rw [← Finset.sum_sub_distrib]
  rfl

/-- The waiting times add up to the delays of the schedule. -/
theorem sum_waiting {C : ℕ → ℕ} (hC : ∀ i < W.length, Policy.rr.CompletesAt os q W i (C i)) :
    ∑ i ∈ Finset.range W.length, ((C i : Int) - (entry (q.sort rrCompare W) i).ready -
        (entry (q.sort rrCompare W) i).exec) =
      ∑ t ∈ Finset.range (makespan W),
        ((jobsOf (q.sort rrCompare W)).delayed (Policy.rr.ran os q W) t).card := by
  have hT : WellFormed (q.sort rrCompare W) := Policy.table_wellFormed (P := .rr) (q := q) hW
  have hlen : (q.sort rrCompare W).length = W.length := q.length_sort _ _
  have hd := describes_rr_run (q := q) hos hW
  have hJ := (Policy.completesAt_iff (P := .rr) hos hW fun h => by cases h).mp hC
  have hle : ∀ i ∈ (jobsOf (q.sort rrCompare W)).jobs, C i ≤ makespan W := fun i hi =>
    (hJ i hi _).mpr (hd.finished i hi)
  have hjobs : (jobsOf (q.sort rrCompare W)).jobs = Finset.range W.length := by
    rw [← hlen]
    rfl
  -- the sums over the table are those over its jobs
  have hresponse : ∑ i ∈ Finset.range W.length,
      ((C i : Int) - (entry (q.sort rrCompare W) i).ready) =
        (∑ i ∈ Finset.range W.length, (C i - (jobsOf (q.sort rrCompare W)).release i) : ℕ) := by
    rw [Nat.cast_sum]
    refine Finset.sum_congr rfl fun i hi => ?_
    rw [← hlen, Finset.mem_range] at hi
    rw [Nat.cast_sub (hJ.release_le hd.legal hT.mem_length_pos (mem_jobsOf.mpr hi)),
      hT.release_eq hi]
  have hexec : ∑ i ∈ Finset.range W.length, (entry (q.sort rrCompare W) i).exec =
      (∑ i ∈ Finset.range W.length, (jobsOf (q.sort rrCompare W)).length i : ℕ) := by
    rw [Nat.cast_sum]
    refine Finset.sum_congr rfl fun i hi => ?_
    rw [← hlen, Finset.mem_range] at hi
    exact (hT.length_eq hi).symm
  have hsum := hJ.sum_delayed hd.legal hle
  rw [hjobs] at hsum
  rw [Finset.sum_sub_distrib, hresponse, hexec, hsum]
  push_cast
  omega

end

/-- The total RR prints is that of the response times, for no workload that of
    the waiting times. -/
theorem wait_is_response (os : Os) (q : Qsort) (W : List Process) (hos : os.Healthy)
    (hW : WellFormed W) :
    ¬ ReportsWaiting os q W ∧ ∃ k s, ∃ C : ℕ → ℕ, rrMain os q W k = .done s ∧
      (∀ i < W.length, Policy.rr.CompletesAt os q W i (C i)) ∧
      s.wait = int32 (∑ i ∈ Finset.range W.length,
        ((C i : Int) - (entry (q.sort rrCompare W) i).ready)) ∧
      ∑ i ∈ Finset.range W.length, ((C i : Int) - (entry (q.sort rrCompare W) i).ready -
          (entry (q.sort rrCompare W) i).exec) =
        ∑ t ∈ Finset.range (makespan W),
          ((jobsOf (q.sort rrCompare W)).delayed (Policy.rr.ran os q W) t).card := by
  obtain ⟨C, hC⟩ := exists_completesAt (q := q) hos hW
  obtain ⟨k, s, hs, hwait⟩ := exists_wait hos hW hC
  exact ⟨not_reportsWaiting hos hW, k, s, C, hs, hC, hwait, sum_waiting hos hW hC⟩

theorem wait_is_response_readme :
    ¬ ReportsWaiting Os.counting Qsort.insertion readmeWorkload ∧ ∃ k s, ∃ C : ℕ → ℕ,
      rrMain Os.counting Qsort.insertion readmeWorkload k = .done s ∧
      (∀ i < readmeWorkload.length,
        Policy.rr.CompletesAt Os.counting Qsort.insertion readmeWorkload i (C i)) ∧
      s.wait = int32 (∑ i ∈ Finset.range readmeWorkload.length,
        ((C i : Int) - (entry (Qsort.insertion.sort rrCompare readmeWorkload) i).ready)) ∧
      ∑ i ∈ Finset.range readmeWorkload.length,
          ((C i : Int) - (entry (Qsort.insertion.sort rrCompare readmeWorkload) i).ready -
            (entry (Qsort.insertion.sort rrCompare readmeWorkload) i).exec) =
        ∑ t ∈ Finset.range (makespan readmeWorkload),
          ((jobsOf (Qsort.insertion.sort rrCompare readmeWorkload)).delayed
            (Policy.rr.ran Os.counting Qsort.insertion readmeWorkload) t).card :=
  wait_is_response Os.counting Qsort.insertion readmeWorkload Os.counting_healthy (by decide)

/-- The total printed for the test of README.md is not its waiting time. -/
theorem readme_wait :
    Os.counting.Healthy ∧ WellFormed readmeWorkload ∧
      ¬ ReportsWaiting Os.counting Qsort.insertion readmeWorkload :=
  ⟨Os.counting_healthy, by decide, not_reportsWaiting Os.counting_healthy (by decide)⟩

end Rr
end ProcSched
