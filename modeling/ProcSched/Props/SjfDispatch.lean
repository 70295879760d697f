/-
  ProcSched.Props.SjfDispatch

  SJF is shortest job first without preemption.  The counters of the candidates
  of a dispatch still hold what the file says, so the least counter is the least
  `exec`; the table is in ready order, so the first of several is the one that
  came first; and what is dispatched runs to its end.
-/

import ProcSched.Lib.Compare
import ProcSched.Refine.Calls

namespace ProcSched
namespace Sjf

/-- In the iteration with clock `t`, `running` changes from -1 to `j`; `s` is the
    state at the selection. -/
def Dispatches (os : Os) (q : Qsort) (W : List Process) (t j : ℕ) (s : Loop.State) : Prop :=
  ∃ s₀ s₁, sjf os q W t = .next s₀ ∧ discipline.arrive os s₀ = .next s ∧
    discipline.contextSwitch os s = .next s₁ ∧ s.running = none ∧ s₁.running = some j

/-- What a dispatch of `proc[j]` at clock `t` amounts to, the entries being those
    of the sorted table `V`. -/
structure ShortestFirstCome (os : Os) (q : Qsort) (W V : List Process) (t j : ℕ)
    (s : Loop.State) : Prop where
  /-- it has arrived and is unfinished -/
  arrived : j < V.length ∧ (entry V j).ready ≤ t ∧ 0 < (entry s.proc j).exec
  /-- no arrived unfinished process is shorter, or as short and came before it -/
  least : ∀ i < V.length, (entry V i).ready ≤ t → 0 < (entry s.proc i).exec →
    (entry V j).exec < (entry V i).exec ∨
      (entry V j).exec = (entry V i).exec ∧ (entry V j).ready ≤ (entry V i).ready
  /-- it runs in one stretch -/
  units : ∀ u : ℕ, Policy.sjf.ran os q W u = some j ↔ t ≤ u ∧ (u : Int) < t + (entry V j).exec
  /-- and is waited for at the end of it -/
  reaped : ∃ c : ℕ, (c : Int) = t + (entry V j).exec ∧
    ∃ k s', sjf os q W k = .done s' ∧
      ∀ c', (c', (entry s'.proc j).pid) ∈ s'.log.reaped ↔ c' = c

section

variable {os : Os} {q : Qsort} {W : List Process} (hos : os.Healthy) (hW : WellFormed W)
include hos hW

theorem describes_sjf : Describes (Policy.sjf.run os q W) (q.sort cmp W) (sjnLaw (q.sort cmp W))
    (Policy.sjf.ran os q W) 1 (makespan W) :=
  Policy.describes (P := .sjf) hos hW fun h => by cases h

theorem sjn_ran : (jobsOf (q.sort cmp W)).Sjn (Policy.sjf.ran os q W) :=
  Policy.law (P := .sjf) hos hW fun h => by cases h

/-- A dispatch, in the terms of the schedule. -/
theorem Dispatches.starts {t j : ℕ} {s : Loop.State} (h : Dispatches os q W t j s) :
    Loop.AtChoice discipline (q.sort cmp W) (Policy.sjf.ran os q W) t s ∧
      (jobsOf (q.sort cmp W)).current (Policy.sjf.ran os q W) t = none ∧
      (Policy.sjf.ran os q W).Starts t j := by
  have hT : WellFormed (q.sort cmp W) := Policy.table_wellFormed (P := .sjf) (q := q) hW
  have hS := sjn_ran (q := q) hos hW
  obtain ⟨s₀, s₁, hs₀, harr, hswitch, hnone, hj⟩ := h
  obtain ⟨log, hlog, hstart⟩ := start_ok hos q W
  have hC := Loop.atChoice_of_arrive (obeys hos hT) hT hlog.marks hstart hs₀ harr
  have hrun := Loop.followed_eq hs₀ harr hswitch
  rw [← Policy.ran_sjf hos hW] at hC hrun
  have hcur := hC.running.symm.trans hnone
  -- nobody is carried over, so a process that had the previous unit has ended
  refine ⟨hC, hcur, hrun.trans hj, fun hprev => ?_⟩
  have hle := Jobs.current_eq_none.mp hcur j hprev
  have := (hS.legal t j (hrun.trans hj)).unfinished
  omega

/-- What is dispatched ends when it has had its units, without a break. -/
theorem ended_of_starts {t j : ℕ} (hstart : (Policy.sjf.ran os q W).Starts t j) :
    (jobsOf (q.sort cmp W)).ended (Policy.sjf.ran os q W)
      (t + (jobsOf (q.sort cmp W)).length j) = some j := by
  have hT : WellFormed (q.sort cmp W) := Policy.table_wellFormed (P := .sjf) (q := q) hW
  have hS := sjn_ran (q := q) hos hW
  have hpos := hT.mem_length_pos j (hS.legal t j hstart.1).mem
  refine Jobs.ended_eq_some.mpr ⟨?_, (Jobs.served_end_of_starts hS.keep hS.legal hstart).ge⟩
  obtain ⟨d, hd⟩ : ∃ d, (jobsOf (q.sort cmp W)).length j = d + 1 :=
    ⟨_, (Nat.succ_pred_eq_of_pos hpos).symm⟩
  rw [hd, ← Nat.add_assoc, Schedule.prev_succ]
  exact (Jobs.run_iff_of_starts hS.keep hS.legal hstart).mpr ⟨by omega, by omega⟩

/-- It is waited for then, and at no other time. -/
theorem reaped_of_starts {t j : ℕ} (hstart : (Policy.sjf.ran os q W).Starts t j) :
    ∃ k s', sjf os q W k = .done s' ∧ ∀ c, (c, (entry s'.proc j).pid) ∈ s'.log.reaped ↔
      c = t + (jobsOf (q.sort cmp W)).length j := by
  have hT : WellFormed (q.sort cmp W) := Policy.table_wellFormed (P := .sjf) (q := q) hW
  have hS := sjn_ran (q := q) hos hW
  have hd := describes_sjf (q := q) hos hW
  have hend := ended_of_starts hos hW hstart
  have hel := hS.legal t j hstart.1
  obtain ⟨s', hs', hchild⟩ := Policy.exists_children hos (P := .sjf) (q := q) (by decide) hW
  obtain ⟨s'', hs'', rfl⟩ := Outcome.map_eq_done.mp hs'
  have hclock : t + (jobsOf (q.sort cmp W)).length j ≤ makespan W := by
    have hpos := hT.mem_length_pos j hel.mem
    have := hd.lt_of_run ((Jobs.run_iff_of_starts hS.keep hS.legal hstart
      (t := t + (jobsOf (q.sort cmp W)).length j - 1)).mpr ⟨by omega, by omega⟩)
    omega
  refine ⟨makespan W + 1, s'', hs'', fun c => ?_⟩
  show _ ∈ s''.snapshot.log.reaped ↔ _
  rw [hchild.reaped, List.mem_map]
  constructor
  · rintro ⟨⟨c, i⟩, he, heq⟩
    obtain ⟨hc, hendi⟩ := mem_endings.mp he
    obtain ⟨u, rfl, hrun⟩ := Jobs.run_of_ended hendi
    have heli := hS.legal u i hrun
    obtain ⟨rfl, hpid⟩ := Prod.mk.inj heq
    -- the pid tells the process
    obtain rfl := hchild.inj i j ⟨mem_jobsOf.mp heli.mem, lt_of_le_of_lt heli.released
      (Nat.lt_of_succ_lt_succ hc)⟩ ⟨mem_jobsOf.mp hel.mem, lt_of_le_of_lt hel.released
      (hd.lt_of_run hstart.1)⟩ hpid
    exact ended_unique hS.legal hendi hend
  · rintro rfl
    exact ⟨(_, j), mem_endings.mpr ⟨Nat.lt_succ_of_le hclock, hend⟩, rfl⟩

theorem dispatch_spec {t j : ℕ} {s : Loop.State} (h : Dispatches os q W t j s) :
    ShortestFirstCome os q W (q.sort cmp W) t j s := by
  have hT : WellFormed (q.sort cmp W) := Policy.table_wellFormed (P := .sjf) (q := q) hW
  have hS := sjn_ran (q := q) hos hW
  obtain ⟨hC, hcur, hstart⟩ := h.starts hos hW
  have hel := hS.legal t j hstart.1
  have hj := mem_jobsOf.mp hel.mem
  have hlength := hT.length_eq hj
  -- the arrived processes with a positive counter are the eligible jobs
  have heligible : ∀ i < (q.sort cmp W).length, (jobsOf (q.sort cmp W)).Eligible
      (Policy.sjf.ran os q W) t i ↔
        (entry (q.sort cmp W) i).ready ≤ t ∧ 0 < (entry s.proc i).exec := by
    intro i hi
    have hrelease := hT.release_eq hi
    have hexec := hC.tracks.exec_eq_left hT hi (hC.served_le i hi)
    rw [Jobs.left] at hexec
    constructor
    · intro hi'
      have h₁ := hi'.released
      have h₂ := hi'.unfinished
      omega
    · rintro ⟨hr, he⟩
      exact ⟨mem_jobsOf.mpr hi, by omega, by omega⟩
  have hsorted := Policy.table_sorted (P := .sjf) (q := q) hW (by decide)
  refine ⟨⟨hj, (heligible j hj).mp hel⟩, fun i hi hr he => ?_, fun u => ?_, ?_⟩
  · have hi' := (heligible i hi).mpr ⟨hr, he⟩
    have hlength' := hT.length_eq hi
    rcases hS.length_least hcur hstart.1 hi' with hlt | ⟨heq, hle⟩
    · exact Or.inl (by omega)
    · exact Or.inr ⟨by omega, ready_le_of_le hsorted hle hi⟩
  · rw [Jobs.run_iff_of_starts hS.keep hS.legal hstart]
    omega
  · exact ⟨t + (jobsOf (q.sort cmp W)).length j, by push_cast; omega,
      reaped_of_starts hos hW hstart⟩

/-- If all processes are of one length, SJF runs what FIFO runs on the table. -/
theorem fifo_of_same_length {q' : Qsort} {W' : List Process}
    (hsame : ∀ p ∈ W, ∀ p' ∈ W, p.exec = p'.exec)
    (htable : q'.sort Fifo.compare W' = q.sort cmp W) (t : ℕ) :
    Policy.sjf.ran os q W t = Policy.fifo.ran os q' W' t := by
  -- both tables have the processes of `W`, and on one table the two laws coincide
  have hperm : W'.Perm W :=
    ((htable ▸ Policy.table_perm .fifo q' W' : (q.sort cmp W).Perm W').symm).trans
      (Policy.table_perm .sjf q W)
  have hW' := hW.perm hperm
  have hF : (jobsOf (q'.sort Fifo.compare W')).Fcfs (Policy.fifo.ran os q' W') :=
    Policy.law (P := .fifo) hos hW' fun h => by cases h
  rw [htable] at hF
  have hS := (sjn_ran (q := q) hos hW).fcfs_of_same_length fun i hi j hj => by
    have hmem : ∀ x ∈ (jobsOf (q.sort cmp W)).jobs, entry (q.sort cmp W) x ∈ W := fun x hx =>
      (Policy.table_perm .sjf q W).mem_iff.mp (entry_mem (mem_jobsOf.mp hx))
    exact congrArg Int.toNat (hsame _ (hmem i hi) _ (hmem j hj))
  have hmatch := Jobs.Fcfs.matching (Jobs.Matches.refl _ t) (Jobs.KeepsOrder.refl _ t) hS hF t
    (Nat.le_refl t)
  rw [hmatch, Option.map_id_fun, id_eq]

end

/-- SJF dispatches, without preemption, the first arrived of the shortest
    processes; processes of one length it runs as FIFO does. -/
theorem shortest_first (os : Os) (q : Qsort) (W : List Process) (hos : os.Healthy)
    (hW : WellFormed W) :
    (∀ t j s, Dispatches os q W t j s → ShortestFirstCome os q W (q.sort cmp W) t j s) ∧
      ((∀ p ∈ W, ∀ p' ∈ W, p.exec = p'.exec) → ∀ (q' : Qsort) (W' : List Process),
        q'.sort Fifo.compare W' = q.sort cmp W →
          ∀ t, Policy.sjf.ran os q W t = Policy.fifo.ran os q' W' t) :=
  ⟨fun _ _ _ h => dispatch_spec hos hW h,
    fun hsame _ _ htable t => fifo_of_same_length hos hW hsame htable t⟩

/-- At clock 4 three processes have arrived, two of them of one unit. -/
theorem shortest_first_short :
    ∃ s, Dispatches Os.counting Qsort.insertion shortWorkload 4 2 s ∧
      ShortestFirstCome Os.counting Qsort.insertion shortWorkload
        (Qsort.insertion.sort cmp shortWorkload) 4 2 s :=
  have h : Dispatches Os.counting Qsort.insertion shortWorkload 4 2
      (discipline.arrive Os.counting
        (sjf Os.counting Qsort.insertion shortWorkload 4).state).state :=
    ⟨_, _, rfl, rfl, rfl, rfl, rfl⟩
  ⟨_, h, (shortest_first Os.counting Qsort.insertion shortWorkload Os.counting_healthy
    (by decide)).1 4 2 _ h⟩

end Sjf
end ProcSched
