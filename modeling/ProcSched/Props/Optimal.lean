/-
  ProcSched.Props.Optimal

  PSJF is optimal: at every time it has finished at least as many processes as
  any other schedule of the workload on one CPU, so the sum of its completion
  times is least, and in particular not above that of FIFO, SJF or RR.
-/

import ProcSched.Refine.Positions

namespace ProcSched

/-- A schedule of the workload on one CPU, one unit at a time: only processes
    whose ready time has come, and for every process its `exec` units in all. -/
structure Serves (W : List Process) (τ : Schedule ℕ) : Prop where
  released : ∀ t i, τ t = some i → i < W.length ∧ (entry W i).ready ≤ t
  complete : ∀ i < W.length, ∃ T, ∀ t, T ≤ t → (τ.served t i : Int) = (entry W i).exec

/-- The processes that have had all their units before time `t`. -/
def completedBy (W : List Process) (τ : Schedule ℕ) (t : ℕ) : Finset ℕ :=
  (Finset.range W.length).filter fun i => (τ.served t i : Int) = (entry W i).exec

/-- The processes whose counter has reached 0 within the first `t` units. -/
def Policy.completedBy (P : Policy) (os : Os) (q : Qsort) (W : List Process) (t : ℕ) : Finset ℕ :=
  (Finset.range W.length).filter fun i => (entry (P.run os q W t).state.proc i).exec = 0

section Serves

variable {W : List Process} {τ : Schedule ℕ} (hW : WellFormed W) (hτ : Serves W τ)
include hW hτ

/-- No process gets more than its units, so a schedule of the workload is legal. -/
theorem Serves.legal : (jobsOf W).Legal τ := by
  intro t i hrun
  obtain ⟨hi, hready⟩ := hτ.released t i hrun
  obtain ⟨T, hT⟩ := hτ.complete i hi
  have hend := hT (max T (t + 1)) (le_max_left _ _)
  have hmono := Schedule.served_le_served (σ := τ) i (le_max_right T (t + 1))
  have hself := Schedule.served_succ_self hrun
  have hlen := hW.length_eq hi
  have hrel := hW.release_eq hi
  exact ⟨mem_jobsOf.mpr hi, by omega, by omega⟩

theorem Serves.served_eq_iff {i : ℕ} (hi : i < W.length) (t : ℕ) :
    (τ.served t i : Int) = (entry W i).exec ↔ (jobsOf W).length i ≤ τ.served t i := by
  have hle := (hτ.legal hW).served_le (i := i) t
  have hlen := hW.length_eq hi
  omega

theorem Serves.card_completedBy (t : ℕ) :
    (completedBy W τ t).card = (jobsOf W).completed τ t := by
  rw [completedBy, Jobs.completed]
  congr 1
  exact Finset.filter_congr fun i hi => hτ.served_eq_iff hW (Finset.mem_range.mp hi) t

end Serves

section Runs

variable {P : Policy} {os : Os} {q : Qsort} {W : List Process}

/-- The completion times of a scheduler, as those of its schedule. -/
theorem Policy.completesAt_iff (hos : os.Healthy) (hW : WellFormed W) (hz : P.Fresh W)
    {C : ℕ → ℕ} : (∀ i < W.length, P.CompletesAt os q W i (C i)) ↔
      (jobsOf (P.table q W)).CompletesAt (P.ran os q W) C := by
  have hd := P.describes (q := q) hos hW hz
  have hiff := fun i hi k => hd.exec_eq_zero_iff (P.table_wellFormed hW) (i := i) hi k
  rw [Policy.length_table] at hiff
  constructor
  · intro hC i hi t
    have hi' : i < W.length := by
      rw [← P.length_table q W]
      exact mem_jobsOf.mp hi
    rw [← hiff i hi' t]
    exact hC i hi' t
  · intro hC i hi k
    rw [hiff i hi k]
    exact hC i (mem_jobsOf.mpr (by rw [P.length_table]; exact hi)) k

theorem Policy.exists_completesAt (hos : os.Healthy) (hW : WellFormed W) (hz : P.Fresh W) :
    ∃ C, (jobsOf (P.table q W)).CompletesAt (P.ran os q W) C :=
  Jobs.exists_completesAt fun i hi => ⟨_, (P.describes hos hW hz).finished i hi⟩

theorem Psjf.shortestFirst (hos : os.Healthy) (hW : WellFormed W) (hz : ZeroWaiting W) :
    (jobsOf W).ShortestFirst (Policy.psjf.ran os q W) :=
  Jobs.Srpt.shortestFirst (Policy.law (P := .psjf) hos hW fun _ => hz)

theorem Psjf.card_completedBy (hos : os.Healthy) (hW : WellFormed W) (hz : ZeroWaiting W)
    (t : ℕ) : (Policy.psjf.completedBy os q W t).card
      = (jobsOf W).completed (Policy.psjf.ran os q W) t := by
  have hd := Policy.psjf.describes (q := q) hos hW fun _ => hz
  rw [Policy.completedBy, Jobs.completed]
  congr 1
  exact Finset.filter_congr fun i hi => hd.exec_eq_zero_iff hW (Finset.mem_range.mp hi) t

/-- The completion times of PSJF add up to at most those of another scheduler,
    carried over to the positions of the workload. -/
theorem Psjf.sum_completion_le {os' : Os} (hos : os.Healthy) (hos' : os'.Healthy)
    (hW : WellFormed W) (hz : ZeroWaiting W) {C D : ℕ → ℕ}
    (hC : (jobsOf W).CompletesAt (Policy.psjf.ran os q W) C)
    (hD : (jobsOf (P.table q W)).CompletesAt (P.ran os' q W) D) :
    ∑ i ∈ Finset.range W.length, C i ≤ ∑ i ∈ Finset.range W.length, D i := by
  have hd := P.describes (q := q) hos' hW fun _ => hz
  have hsame : SameRecords (P.table q W) W := SameRecords.of_perm (P.table_perm q W)
  have hlen := P.length_table q W
  have hL := carry_legal hsame hd.legal
  have hserved := fun i hi t => carry_served hsame hd.legal (i := i) hi t
  have hlength : ∀ i < (P.table q W).length,
      (jobsOf W).length (position hsame i) = (jobsOf (P.table q W)).length i := fun i hi =>
    congrArg Int.toNat (exec_position hsame hi)
  -- the carried schedule has completion times, and they are those of the scheduler
  obtain ⟨E, hE⟩ : ∃ E, (jobsOf W).CompletesAt (carry hsame (P.ran os' q W)) E := by
    apply Jobs.exists_completesAt
    intro k hk
    obtain ⟨i, hi, rfl⟩ := exists_position hsame (mem_jobsOf.mp hk)
    refine ⟨makespan W, ?_⟩
    rw [hserved i hi, hlength i hi]
    exact hd.finished i (mem_jobsOf.mpr hi)
  have hED : ∀ i < (P.table q W).length, E (position hsame i) = D i := by
    intro i hi
    have hiff : ∀ t, E (position hsame i) ≤ t ↔ D i ≤ t := fun t => by
      rw [hE _ (mem_jobsOf.mpr (position_lt hsame hi)) t, hD i (mem_jobsOf.mpr hi) t,
        hserved i hi, hlength i hi]
    exact Nat.le_antisymm ((hiff _).mpr (Nat.le_refl _)) ((hiff _).mp (Nat.le_refl _))
  have hle := (Psjf.shortestFirst (q := q) hos hW hz).sum_completion_le hL hW.mem_length_pos hC hE
  calc ∑ i ∈ Finset.range W.length, C i
      ≤ ∑ k ∈ Finset.range W.length, E k := hle
    _ = ∑ i ∈ Finset.range (P.table q W).length, E (position hsame i) := sum_position hsame E
    _ = ∑ i ∈ Finset.range (P.table q W).length, D i :=
        Finset.sum_congr rfl fun i hi => hED i (Finset.mem_range.mp hi)
    _ = ∑ i ∈ Finset.range W.length, D i := by rw [hlen]

end Runs

/-- PSJF has completion times `C`; no schedule of the workload has finished more
    processes at any time or has a smaller sum of completion times, and neither
    has any of the four schedulers. -/
theorem Psjf.optimal (os : Os) (q : Qsort) (W : List Process) (hos : os.Healthy)
    (hW : WellFormed W) (hz : ZeroWaiting W) :
    ∃ C : ℕ → ℕ, (∀ i < W.length, Policy.psjf.CompletesAt os q W i (C i)) ∧
      (∀ τ, Serves W τ →
        (∀ t, (completedBy W τ t).card ≤ (Policy.psjf.completedBy os q W t).card) ∧
        ∀ D : ℕ → ℕ,
          (∀ i < W.length, ∀ t, D i ≤ t ↔ (τ.served t i : Int) = (entry W i).exec) →
          ∑ i ∈ Finset.range W.length, C i ≤ ∑ i ∈ Finset.range W.length, D i) ∧
      ∀ (P : Policy) (os' : Os), os'.Healthy →
        ∃ D : ℕ → ℕ, (∀ i < W.length, P.CompletesAt os' q W i (D i)) ∧
          ∑ i ∈ Finset.range W.length, C i ≤ ∑ i ∈ Finset.range W.length, D i := by
  have hS := Psjf.shortestFirst (q := q) hos hW hz
  obtain ⟨C, hC⟩ := Policy.exists_completesAt (P := .psjf) (q := q) hos hW fun _ => hz
  refine ⟨C, (Policy.completesAt_iff hos hW fun _ => hz).mpr hC, fun τ hτ => ⟨fun t => ?_,
    fun D hD => ?_⟩, fun P os' hos' => ?_⟩
  · rw [hτ.card_completedBy hW, Psjf.card_completedBy hos hW hz]
    exact hS.completed_le_completed (hτ.legal hW) hW.mem_length_pos t
  · apply hS.sum_completion_le (hτ.legal hW) hW.mem_length_pos hC
    intro i hi t
    have hi' := mem_jobsOf.mp hi
    rw [← hτ.served_eq_iff hW hi']
    exact hD i hi' t
  · obtain ⟨D, hD⟩ := Policy.exists_completesAt (P := P) (q := q) hos' hW fun _ => hz
    exact ⟨D, (Policy.completesAt_iff hos' hW fun _ => hz).mpr hD,
      Psjf.sum_completion_le hos hos' hW hz hC hD⟩

theorem Psjf.optimal_readme :
    ∃ C : ℕ → ℕ,
      (∀ i < readmeWorkload.length,
        Policy.psjf.CompletesAt Os.counting Qsort.insertion readmeWorkload i (C i)) ∧
      (∀ τ, Serves readmeWorkload τ →
        (∀ t, (completedBy readmeWorkload τ t).card ≤
          (Policy.psjf.completedBy Os.counting Qsort.insertion readmeWorkload t).card) ∧
        ∀ D : ℕ → ℕ,
          (∀ i < readmeWorkload.length, ∀ t,
            D i ≤ t ↔ (τ.served t i : Int) = (entry readmeWorkload i).exec) →
          ∑ i ∈ Finset.range readmeWorkload.length, C i ≤
            ∑ i ∈ Finset.range readmeWorkload.length, D i) ∧
      ∀ (P : Policy) (os' : Os), os'.Healthy →
        ∃ D : ℕ → ℕ,
          (∀ i < readmeWorkload.length,
            P.CompletesAt os' Qsort.insertion readmeWorkload i (D i)) ∧
          ∑ i ∈ Finset.range readmeWorkload.length, C i ≤
            ∑ i ∈ Finset.range readmeWorkload.length, D i :=
  Psjf.optimal Os.counting Qsort.insertion readmeWorkload Os.counting_healthy (by decide)
    (by decide)

end ProcSched
