/-
  ProcSched.Props.FifoRr

  FIFO and RR make the same run exactly when no quantum boundary of the FIFO run
  is contested.  With a stable sort both work on the same table.
-/

import ProcSched.Lib.Compare
import ProcSched.Props.Integrity

namespace ProcSched

/-- `proc[i]` is counted finished at clock `c`, and at no other. -/
def Policy.FinishesAt (P : Policy) (os : Os) (q : Qsort) (W : List Process) (i c : ℕ) : Prop :=
  ∃ k s, P.run os q W k = .done s ∧ s.log.stamps (.finish i) = [c]

/-- FIFO and RR run the same process in every unit and finish every process at
    the same clock. -/
def FifoLikeRr (os : Os) (q : Qsort) (W : List Process) : Prop :=
  (∀ t, Policy.fifo.ran os q W t = Policy.rr.ran os q W t) ∧
    ∀ i < W.length, ∀ c, Policy.fifo.FinishesAt os q W i c ↔ Policy.rr.FinishesAt os q W i c

/-- In the FIFO run some process, put on the processor at clock `s`, still has
    units left at clock `s + 500 * k`, and so has another process that is ready. -/
def ContestedQuantum (os : Os) (q : Qsort) (W : List Process) : Prop :=
  ∃ i < W.length, ∃ s k, 1 ≤ k ∧
    (s, Mark.switch i) ∈ (Policy.fifo.run os q W (s + 1)).state.log.marks ∧
    0 < (entry (Policy.fifo.run os q W (s + 500 * k)).state.proc i).exec ∧
    ∃ j < W.length, j ≠ i ∧
      (entry (Policy.fifo.table q W) j).ready ≤ (s + 500 * k : ℕ) ∧
      0 < (entry (Policy.fifo.run os q W (s + 500 * k)).state.proc j).exec

section

variable {os : Os} {q : Qsort} {W : List Process}

theorem Policy.finishesAt_iff {P : Policy} (hos : os.Healthy) (hW : WellFormed W)
    (hz : P.Fresh W) (i c : ℕ) : P.FinishesAt os q W i c ↔
      stampsOf (trace (P.table q W) (P.ran os q W) P.delay (makespan W)) (.finish i) = [c] := by
  have hd := P.describes (q := q) hos hW hz
  constructor
  · rintro ⟨k, s, hs, hstamps⟩
    rw [← (hd.closes hs).marks]
    exact hstamps
  · intro hstamps
    obtain ⟨s, hs, hclose⟩ := hd.done (makespan W + 1) (Nat.lt_succ_self _)
    refine ⟨_, s, hs, ?_⟩
    rw [stamps_eq, hclose.marks]
    exact hstamps

/-- With a stable sort FIFO and RR work on the same table. -/
theorem fifo_table_eq_rr_table (hq : q.Stable) (hW : WellFormed W) :
    Policy.fifo.table q W = Policy.rr.table q W :=
  Policy.table_eq hq hW (by decide) (Policy.table_sorted hW (by decide))
    (Policy.table_filter hq hW)

variable (hos : os.Healthy) (hW : WellFormed W) (hq : q.Stable)
include hos hW

theorem contestedQuantum_iff : ContestedQuantum os q W ↔
    (jobsOf (Policy.fifo.table q W)).Contested 500 (Policy.fifo.ran os q W) := by
  have hd := Policy.fifo.describes (q := q) hos hW fun h => by cases h
  have hT := Policy.fifo.table_wellFormed (q := q) hW
  have hlen := Policy.fifo.length_table q W
  constructor
  · rintro ⟨i, hi, s, k, hk, hstart, hunf, j, hj, hji, hready, hexec⟩
    refine ⟨i, s, k, j, hk, (hd.switch_mem s i).mp hstart,
      (hd.exec_pos_iff hT (by omega) _).mp hunf, hji, ?_⟩
    exact (hd.eligible_iff hT (by omega) _).mpr ⟨hready, hexec⟩
  · rintro ⟨i, s, k, j, hk, hstart, hunf, hji, hj⟩
    have hi := mem_jobsOf.mp (hd.legal s i hstart.1).mem
    have hj' := mem_jobsOf.mp hj.mem
    obtain ⟨hready, hexec⟩ := (hd.eligible_iff hT hj' _).mp hj
    exact ⟨i, by omega, s, k, hk, (hd.switch_mem s i).mpr hstart,
      (hd.exec_pos_iff hT hi _).mpr hunf, j, by omega, hji, hready, hexec⟩

include hq

/-- The runs are the same as soon as the schedules are. -/
theorem fifoLikeRr_iff :
    FifoLikeRr os q W ↔ ∀ t, Policy.fifo.ran os q W t = Policy.rr.ran os q W t := by
  refine ⟨fun h => h.1, fun hran => ⟨hran, fun i _ c => ?_⟩⟩
  have hsame : Policy.fifo.ran os q W = Policy.rr.ran os q W := funext hran
  rw [Policy.finishesAt_iff hos hW (fun h => by cases h),
    Policy.finishesAt_iff hos hW (fun h => by cases h), fifo_table_eq_rr_table hq hW, hsame]
  rfl

theorem fifoLikeRr_iff_not_contested :
    FifoLikeRr os q W ↔
      ¬ (jobsOf (Policy.fifo.table q W)).Contested 500 (Policy.fifo.ran os q W) := by
  have hF : (jobsOf (Policy.fifo.table q W)).Fcfs (Policy.fifo.ran os q W) :=
    Policy.law (P := .fifo) hos hW fun h => by cases h
  have hR : (jobsOf (Policy.rr.table q W)).RoundRobin 500 (Policy.rr.ran os q W) :=
    Policy.law (P := .rr) hos hW fun h => by cases h
  rw [← fifo_table_eq_rr_table hq hW] at hR
  rw [fifoLikeRr_iff hos hW hq, hF.eq_roundRobin_iff (by decide) hR]

end

/-- FIFO and RR coincide exactly when no quantum is contested, in particular
    when every process fits one quantum. -/
theorem fifo_like_rr_iff (os : Os) (q : Qsort) (W : List Process) (hos : os.Healthy)
    (hq : q.Stable) (hW : WellFormed W) :
    Policy.fifo.table q W = Policy.rr.table q W ∧
      (FifoLikeRr os q W ↔ ¬ ContestedQuantum os q W) ∧
      ((∀ p ∈ W, p.exec ≤ 500) → FifoLikeRr os q W) := by
  refine ⟨fifo_table_eq_rr_table hq hW, ?_, fun hshort => ?_⟩
  · rw [fifoLikeRr_iff_not_contested hos hW hq, contestedQuantum_iff hos hW]
  · rw [fifoLikeRr_iff_not_contested hos hW hq]
    have hF : (jobsOf (Policy.fifo.table q W)).Fcfs (Policy.fifo.ran os q W) :=
      Policy.law (P := .fifo) hos hW fun h => by cases h
    apply hF.not_contested_of_short
    intro i hi
    have hi' := mem_jobsOf.mp hi
    have hle := hshort _ ((Policy.fifo.table_perm q W).mem_iff.mp (entry_mem hi'))
    have := (Policy.fifo.table_wellFormed (q := q) hW).length_eq hi'
    omega

theorem fifo_like_rr_iff_readme :
    Policy.fifo.table Qsort.insertion readmeWorkload
        = Policy.rr.table Qsort.insertion readmeWorkload ∧
      (FifoLikeRr Os.counting Qsort.insertion readmeWorkload ↔
        ¬ ContestedQuantum Os.counting Qsort.insertion readmeWorkload) ∧
      ((∀ p ∈ readmeWorkload, p.exec ≤ 500) →
        FifoLikeRr Os.counting Qsort.insertion readmeWorkload) :=
  fifo_like_rr_iff Os.counting Qsort.insertion readmeWorkload Os.counting_healthy
    Qsort.insertion_stable (by decide)

end ProcSched
