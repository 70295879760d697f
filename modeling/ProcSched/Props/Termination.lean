/-
  ProcSched.Props.Termination

  Which of the workloads that main lets through are run to an end.  FIFO, SJF and
  RR never select a process without units, and PSJF drives its counter below 0,
  so such a process is never counted; and the first three look at their counter
  only when they have counted a process, which for the empty table is never.
-/

import ProcSched.Props.Integrity
import ProcSched.Refine.Counts

namespace ProcSched

/-- No negative times, and a clock that stays below `INT_MAX`: empty processes and
    the empty table are let through. -/
structure NonNegative (W : List Process) : Prop where
  ready_nonneg : ∀ p ∈ W, 0 ≤ p.ready
  exec_nonneg : ∀ p ∈ W, 0 ≤ p.exec
  bounded : ∀ p ∈ W, p.ready + (W.map Process.exec).sum < intMax

instance (W : List Process) : Decidable (NonNegative W) :=
  decidable_of_iff ((∀ p ∈ W, 0 ≤ p.ready) ∧ (∀ p ∈ W, 0 ≤ p.exec) ∧
      ∀ p ∈ W, p.ready + (W.map Process.exec).sum < intMax)
    ⟨fun ⟨h₁, h₂, h₃⟩ => ⟨h₁, h₂, h₃⟩, fun h => ⟨h.1, h.2, h.3⟩⟩

/-- The scheduler leaves its loop, and every process that has units has got them. -/
def Policy.Terminates (P : Policy) (os : Os) (q : Qsort) (W : List Process) : Prop :=
  ∃ k s, P.run os q W k = .done s ∧ ∀ i < W.length, 1 ≤ (entry (P.table q W) i).exec →
    ((s.log.stamps (.decrement i)).length : Int) = (entry (P.table q W) i).exec

theorem NonNegative.wellFormed {W : List Process} (h : NonNegative W) (hne : W ≠ [])
    (hpos : ∀ p ∈ W, 1 ≤ p.exec) : WellFormed W where
  nonempty := hne
  ready_nonneg := h.ready_nonneg
  exec_pos := hpos
  bounded p hp := (h.bounded p hp).le

namespace Policy

/-- The discipline of a file that has one. -/
def discipline : Policy → Option Loop.Discipline
  | fifo => some Fifo.discipline
  | sjf => some Sjf.discipline
  | rr => some Rr.discipline
  | psjf => none

variable {P : Policy} {os : Os} {q : Qsort} {W : List Process} (hos : os.Healthy)
include hos

/-- A well-formed workload is run to its end. -/
theorem terminates_of_wellFormed (hW : WellFormed W) (hz : P.Fresh W) : P.Terminates os q W := by
  obtain ⟨s, hs, hunits⟩ := (P.describes (q := q) hos hW hz).exists_done (P.table_wellFormed hW)
  exact ⟨_, s, hs, fun i hi _ => hunits i (by rw [P.length_table]; exact hi)⟩

/-- PSJF tests its counter first, so it does not start on the empty table. -/
theorem psjf_done_nil : ∃ s, psjf.run os q [] 1 = .done s := by
  obtain ⟨s, hstart, hproc, -, -, hfinished, -⟩ := Psjf.start_ok hos []
  have hdone : Psjf.psjf os [] 1 = .done s := by
    rw [Psjf.psjf, Outcome.run_succ_of_next (k := 0) (Outcome.run_zero.trans hstart), Psjf.step,
      hfinished, hproc]
    rfl
  exact ⟨s.snapshot, by rw [run, hdone, Outcome.map_done]⟩

theorem psjf_terminates_nil : psjf.Terminates os q [] := by
  obtain ⟨s, hs⟩ := psjf_done_nil (q := q) hos
  exact ⟨1, s, hs, fun i hi => absurd hi (Nat.not_lt_zero i)⟩

/-- PSJF.c has a loop of its own; the other three files share one. -/
theorem psjf_or_loop (P : Policy) (q : Qsort) (W : List Process) : P = psjf ∨ ∃ d log,
    P.discipline = some d ∧ d.Forks os ∧ d.Picks ∧
      (∀ now, Spawns now (fun pid p => { p with pid := pid }) (d.spawn os now)) ∧
      ∀ k, P.run os q W k = (Outcome.run (d.step os)
        (.next (Loop.State.initial (P.table q W) log)) k).map Loop.State.snapshot := by
  cases P with
  | fifo =>
      obtain ⟨log, -, hstart⟩ := Fifo.start_ok hos q W
      refine Or.inr ⟨_, log, rfl, Fifo.forks os, Fifo.picks, Fifo.spawns hos, fun k => ?_⟩
      rw [run, Fifo.fifo, hstart]
      rfl
  | sjf =>
      obtain ⟨log, -, hstart⟩ := Sjf.start_ok hos q W
      refine Or.inr ⟨_, log, rfl, Sjf.forks os, Sjf.picks, Sjf.spawns hos, fun k => ?_⟩
      rw [run, Sjf.sjf, hstart]
      rfl
  | rr =>
      obtain ⟨log, -, hstart⟩ := Rr.start_ok hos q W
      refine Or.inr ⟨_, log, rfl, Rr.forks os, Rr.picks, Rr.spawns hos, fun k => ?_⟩
      rw [run, Rr.rrMain, hstart]
      rfl
  | psjf => exact Or.inl rfl

/-- A scheduler that ends has had units for every process, and a process to count
    unless it is PSJF. -/
theorem of_done {k : ℕ} {s : Snapshot} (h : P.run os q W k = .done s) :
    (∀ i < W.length, (entry (P.table q W) i).exec ≠ 0) ∧ (P = psjf ∨ W ≠ []) := by
  have hlen := P.length_table q W
  rcases psjf_or_loop hos P q W with rfl | ⟨d, log, -, hf, hp, -, hrun⟩
  · obtain ⟨t, ht, -⟩ := Outcome.map_eq_done.mp h
    exact ⟨fun i hi => (Psjf.tally_of_done ht i hi).ne', Or.inl rfl⟩
  · rw [hrun] at h
    obtain ⟨t, ht, -⟩ := Outcome.map_eq_done.mp h
    obtain ⟨-, -, -, -, hne, hexec, -⟩ := Loop.tally_of_done hf hp rfl ht
    rw [hlen] at hexec
    refine ⟨hexec, Or.inr fun hnil => hne ?_⟩
    rw [← List.length_eq_zero_iff, hlen, hnil]
    rfl

end Policy

/-- A workload is run to its end exactly if it has no empty process and, unless
    the scheduler is PSJF, a process at all. -/
theorem terminates_iff (P : Policy) (os : Os) (q : Qsort) (W : List Process) (hos : os.Healthy)
    (hW : NonNegative W) (hz : P.Fresh W) :
    P.Terminates os q W ↔ (∀ p ∈ W, 1 ≤ p.exec) ∧ (P = .psjf ∨ W ≠ []) := by
  constructor
  -- a run that ends has counted everybody, and only those with units are counted
  · rintro ⟨k, s, hs, -⟩
    obtain ⟨hexec, hne⟩ := Policy.of_done hos hs
    refine ⟨fun p hp => ?_, hne⟩
    obtain ⟨i, hi, rfl⟩ := List.getElem_of_mem ((P.table_perm q W).mem_iff.mpr hp)
    have hpos := hW.exec_nonneg _ hp
    have hne := hexec i (by rw [← P.length_table q W]; exact hi)
    rw [entry_eq_getElem hi] at hne
    omega
  -- without empty processes a table is well-formed or empty
  · rintro ⟨hpos, hne⟩
    by_cases hnil : W = []
    · have hP := hne.resolve_right fun h => h hnil
      subst hP hnil
      exact Policy.psjf_terminates_nil hos
    · exact Policy.terminates_of_wellFormed hos (hW.wellFormed hnil hpos) hz

theorem terminates_iff_readme :
    Policy.fifo.Terminates Os.counting Qsort.insertion readmeWorkload ↔
      (∀ p ∈ readmeWorkload, 1 ≤ p.exec) ∧ (Policy.fifo = .psjf ∨ readmeWorkload ≠ []) :=
  terminates_iff .fifo Os.counting Qsort.insertion readmeWorkload Os.counting_healthy (by decide)
    fun h => by cases h

/-- A process that has nothing to do. -/
def idleWorkload : List Process := cleanTable [⟨"P1", 0, 0⟩]

/-- The four schedulers wait for it forever. -/
theorem idle_not_terminates :
    Os.counting.Healthy ∧ NonNegative idleWorkload ∧ ZeroWaiting idleWorkload ∧
      ∀ P : Policy, ¬ P.Terminates Os.counting Qsort.insertion idleWorkload := by
  refine ⟨Os.counting_healthy, by decide, by decide, fun P => ?_⟩
  rintro ⟨k, s, hs, -⟩
  obtain ⟨hexec, -⟩ := Policy.of_done Os.counting_healthy hs
  refine hexec 0 (by decide) ?_
  cases P <;> decide

end ProcSched
