/-
  ProcSched.Props.Turnaround

  How long a process can be under way, from its ready time to its completion.
  The turnaround under PSJF, SJF and RR has a bound in terms of the table alone,
  and the one under FIFO is the best possible in the worst case.  For RR the
  bound shows what starting over after every finish can cost: over the whole run
  a quantum for each pair of other processes, so nobody starves.
-/

import ProcSched.Lib.Response
import ProcSched.Lib.Starvation
import ProcSched.Lib.Turnaround
import ProcSched.Props.FirstCome
import ProcSched.Props.Optimal
import ProcSched.Props.Rotation

namespace ProcSched

section

variable {W : List Process} {i : ℕ}

/-- Sums over the jobs of a table are sums over its entries. -/
theorem sum_jobs_eq {V : List Process} {f : Process → Int} {g : ℕ → ℕ}
    (h : ∀ i < V.length, (g i : Int) = f (entry V i)) :
    ((∑ i ∈ (jobsOf V).jobs, g i : ℕ) : Int) = (V.map f).sum := by
  rw [Nat.cast_sum, ← sum_range_entry]
  exact Finset.sum_congr rfl fun i hi => h i (mem_jobsOf.mp hi)

/-- The unfinished processes apart from one of the table. -/
theorem Rr.card_others_lt (os : Os) (q : Qsort) (c : ℕ) (hi : i < W.length) :
    ((jobsOf (q.sort rrCompare W)).others (Policy.rr.ran os q W) c i).card + 1 ≤ W.length := by
  have hsub : (jobsOf (q.sort rrCompare W)).others (Policy.rr.ran os q W) c i ⊆
      (Finset.range W.length).erase i := fun j hj => by
    obtain ⟨hne, hmem, -⟩ := Jobs.mem_others.mp hj
    have hlen : (q.sort rrCompare W).length = W.length := q.length_sort _ _
    exact Finset.mem_erase.mpr ⟨hne, Finset.mem_range.mpr (hlen ▸ mem_jobsOf.mp hmem)⟩
  have hcard := Finset.card_le_card hsub
  rw [Finset.card_erase_of_mem (Finset.mem_range.mpr hi), Finset.card_range] at hcard
  omega

end

/-- Under PSJF a process waits for no other one longer than for as many units as
    it needs itself. -/
theorem Psjf.turnaround_le_min (os : Os) (q : Qsort) (W : List Process) (hos : os.Healthy)
    (hW : WellFormed W) (hz : ZeroWaiting W) (i : ℕ) (hi : i < W.length) :
    ∃ t : ℕ, Policy.psjf.CompletesAt os q W i t ∧
      (t : Int) ≤ (entry W i).ready + (W.map fun p => min (entry W i).exec p.exec).sum := by
  have hfresh : Policy.psjf.Fresh W := fun _ => hz
  obtain ⟨C, hC⟩ := Policy.exists_completesAt (P := .psjf) (q := q) hos hW hfresh
  refine ⟨C i, (Policy.completesAt_iff hos hW hfresh).mpr hC i hi, ?_⟩
  have hle := (Policy.law (P := .psjf) hos hW hfresh).turnaround_le hC (mem_jobsOf.mpr hi)
  have hsum : ((∑ j ∈ (jobsOf W).jobs, min ((jobsOf W).length i) ((jobsOf W).length j) : ℕ) : Int)
      = (W.map fun p => min (entry W i).exec p.exec).sum := sum_jobs_eq fun j hj => by
    rw [← hW.length_eq hi, ← hW.length_eq hj]
    omega
  rw [← hsum, ← hW.release_eq hi]
  exact_mod_cast hle

/-- In the test of README.md P2 needs 500 units like P3 and P4, and P1 is longer:
    it completes at clock 2500 or earlier. -/
theorem Psjf.turnaround_le_min_readme : ∃ t : ℕ,
    Policy.psjf.CompletesAt Os.counting Qsort.insertion readmeWorkload 1 t ∧
      (t : Int) ≤ 500 + 4 * 500 :=
  Psjf.turnaround_le_min Os.counting Qsort.insertion readmeWorkload Os.counting_healthy (by decide)
    (by decide) 1 (by decide)

/-- Under SJF a process waits for the processes not longer than itself, and for
    one longer process that was started before it was ready: `longest` bounds
    what such a process has left. -/
theorem Sjf.turnaround_le_shorter (os : Os) (q : Qsort) (W : List Process) (hos : os.Healthy)
    (hW : WellFormed W) (i : ℕ) (hi : i < W.length) (p : Process)
    (hp : entry (q.sort cmp W) i = p) (longest : Int) (hnonneg : 0 ≤ longest)
    (hlongest : ∀ r ∈ W, r.ready < p.ready → p.exec < r.exec → r.exec - 1 ≤ longest) :
    ∃ t : ℕ, Policy.sjf.CompletesAt os q W i t ∧
      (t : Int) ≤ p.ready + ((W.filter fun r => r.exec ≤ p.exec).map Process.exec).sum +
        longest := by
  have hfresh : Policy.sjf.Fresh W := fun h => by cases h
  obtain ⟨C, hC⟩ := Policy.exists_completesAt (P := .sjf) (q := q) hos hW hfresh
  have hT := Policy.table_wellFormed (P := .sjf) (q := q) hW
  have hi' : i < (Policy.sjf.table q W).length := by rwa [Policy.length_table]
  refine ⟨C i, (Policy.completesAt_iff hos hW hfresh).mpr hC i hi, ?_⟩
  have hle := (Policy.law (P := .sjf) hos hW hfresh).turnaround_le hC (mem_jobsOf.mpr hi')
  subst hp
  have hexec := hT.length_eq hi'
  have hready := hT.release_eq hi'
  -- the processes not longer than this one, in table order and in file order
  have hsum : ((∑ j ∈ (jobsOf (Policy.sjf.table q W)).jobs with
      (jobsOf (Policy.sjf.table q W)).length j ≤ (jobsOf (Policy.sjf.table q W)).length i,
      (jobsOf (Policy.sjf.table q W)).length j : ℕ) : Int) =
      ((W.filter fun r => r.exec ≤ (entry (q.sort cmp W) i).exec).map Process.exec).sum := by
    rw [Finset.sum_filter, sum_jobs_eq (f := fun r =>
      if r.exec ≤ (entry (q.sort cmp W) i).exec then r.exec else 0) fun j hj => ?_,
      ((Policy.sjf.table_perm q W).map _).sum_eq, List.sum_map_ite]
    · simp
    · have hexecj := hT.length_eq hj
      have hle : (jobsOf (Policy.sjf.table q W)).length j ≤
          (jobsOf (Policy.sjf.table q W)).length i ↔
            (entry (Policy.sjf.table q W) j).exec ≤ (entry (q.sort cmp W) i).exec := by
        rw [← hexecj, ← show _ = (entry (q.sort cmp W) i).exec from hexec]
        exact Nat.cast_le.symm
      by_cases hshort : (entry (Policy.sjf.table q W) j).exec ≤ (entry (q.sort cmp W) i).exec
      · rw [if_pos hshort, if_pos (hle.mpr hshort), hexecj]
      · rw [if_neg hshort, if_neg fun h => hshort (hle.mp h), Nat.cast_zero]
  -- a longer process that has been started
  have hsup : (jobsOf (Policy.sjf.table q W)).jobs.sup (fun j =>
      if (jobsOf (Policy.sjf.table q W)).length i < (jobsOf (Policy.sjf.table q W)).length j ∧
        (jobsOf (Policy.sjf.table q W)).release j < (jobsOf (Policy.sjf.table q W)).release i
      then (jobsOf (Policy.sjf.table q W)).length j - 1 else 0) ≤ longest.toNat := by
    refine Finset.sup_le fun j hj => ?_
    have hj' := mem_jobsOf.mp hj
    have hexecj := hT.length_eq hj'
    have hreadyj := hT.release_eq hj'
    split
    · next hlong =>
      have := hlongest _ ((Policy.sjf.table_perm q W).mem_iff.mp (entry_mem hj'))
        (by rw [← hreadyj, ← show _ = (entry (q.sort cmp W) i).ready from hready]
            exact_mod_cast hlong.2)
        (by rw [← hexecj, ← show _ = (entry (q.sort cmp W) i).exec from hexec]
            exact_mod_cast hlong.1)
      omega
    · exact Nat.zero_le _
  have hready' : ((jobsOf (Policy.sjf.table q W)).release i : Int) =
      (entry (q.sort cmp W) i).ready := hready
  omega

/-- In the test of README.md P4 may find P1, of 2000 units, on the processor. -/
theorem Sjf.turnaround_le_shorter_readme : ∃ t : ℕ,
    Policy.sjf.CompletesAt Os.counting Qsort.insertion readmeWorkload 3 t ∧
      (t : Int) ≤ 1500 + 1500 + 1999 :=
  Sjf.turnaround_le_shorter Os.counting Qsort.insertion readmeWorkload Os.counting_healthy
    (by decide) 3 (by decide) (Record.load ⟨"P4", 1500, 500⟩) (by decide) 1999 (by decide)
    (by decide)

/-- Under RR an eligible process has the processor within a quantum for each pair
    of processes, however the finishes fall. -/
theorem Rr.dispatched_within (os : Os) (q : Qsort) (W : List Process) (hos : os.Healthy)
    (hW : WellFormed W) (c i : ℕ) (h : Rr.EligibleAt os q W c i) :
    ∃ t, c ≤ t ∧ t ≤ c + 500 * W.length.choose 2 ∧ Policy.rr.ran os q W t = some i := by
  have hel := (Rr.eligibleAt_iff hos hW c i).mp h
  obtain ⟨t, hct, hle, hrun⟩ := (Rr.roundRobin_ran hos hW).dispatched (by decide) hel
  have hcard := Rr.card_others_lt os q c h.1
  have hmono := Nat.mul_le_mul_left Rr.interval (Nat.choose_le_choose 2 hcard)
  exact ⟨t, hct, by rw [Rr.interval] at hle hmono; omega, hrun⟩

/-- In the test of README.md P4 is ready at clock 1500. -/
theorem Rr.dispatched_within_readme : ∃ t, 1500 ≤ t ∧ t ≤ 1500 + 500 * 6 ∧
    Policy.rr.ran Os.counting Qsort.insertion readmeWorkload t = some 3 := by
  have hW : WellFormed readmeWorkload := by decide
  have hR := Rr.roundRobin_ran (q := Qsort.insertion) Os.counting_healthy hW
  have hel := hR.legal.eligible_release (i := 3) (mem_jobsOf.mpr (by decide)) (by decide)
  exact Rr.dispatched_within Os.counting Qsort.insertion readmeWorkload Os.counting_healthy hW
    1500 3 ((Rr.eligibleAt_iff Os.counting_healthy hW 1500 3).mpr hel)

/-- Under RR a process waits for one quantum of every other process for each
    quantum it needs, and for one more for each pair of the others: that is the
    price of starting over after a finish, to be paid once. -/
theorem Rr.turnaround_le_rounds (os : Os) (q : Qsort) (W : List Process) (hos : os.Healthy)
    (hW : WellFormed W) (i : ℕ) (hi : i < W.length) (p : Process)
    (hp : entry (q.sort rrCompare W) i = p) :
    ∃ t : ℕ, Policy.rr.CompletesAt os q W i t ∧
      (t : Int) ≤ p.ready + p.exec +
        500 * ((W.length - 1) * ((p.exec + 499) / 500) + (W.length - 1).choose 2) := by
  have hfresh : Policy.rr.Fresh W := fun h => by cases h
  have hR := Rr.roundRobin_ran (q := q) hos hW
  have hT : WellFormed (q.sort rrCompare W) := Policy.table_wellFormed (P := .rr) (q := q) hW
  have hi' : i < (q.sort rrCompare W).length := lt_of_lt_of_eq hi (q.length_sort _ _).symm
  obtain ⟨C, hC⟩ := Policy.exists_completesAt (P := .rr) (q := q) hos hW hfresh
  refine ⟨C i, (Policy.completesAt_iff hos hW hfresh).mpr hC i hi, ?_⟩
  have hexec := hT.length_eq hi'
  have hready := hT.release_eq hi'
  have hpos := hT.jobs_length_pos hi'
  rw [hp] at hexec hready
  -- the process has everything before it when it becomes ready
  have hzero := hR.legal.served_eq_zero (Nat.le_refl ((jobsOf (q.sort rrCompare W)).release i))
  have hserved := hR.served_of_wait (by decide)
    (hR.legal.eligible_release (mem_jobsOf.mpr hi') hpos)
  have hle := (hC i (mem_jobsOf.mpr hi') _).mpr hserved
  have hleft : (jobsOf (q.sort rrCompare W)).left (Policy.rr.ran os q W)
      ((jobsOf (q.sort rrCompare W)).release i) i = (jobsOf (q.sort rrCompare W)).length i := by
    rw [Jobs.left, hzero, Nat.sub_zero]
  have hcard := Rr.card_others_lt os q ((jobsOf (q.sort rrCompare W)).release i) hi
  rw [hleft, interval] at hle
  generalize ((jobsOf (q.sort rrCompare W)).others (Policy.rr.ran os q W)
    ((jobsOf (q.sort rrCompare W)).release i) i).card = a at hle hcard
  obtain ⟨m, hm⟩ : ∃ m, W.length = m + 1 := ⟨W.length - 1, by omega⟩
  have hquanta : ((jobsOf (q.sort rrCompare W)).length i - 1) / 500 + 1 =
      ((jobsOf (q.sort rrCompare W)).length i + 499) / 500 := by omega
  have hbound : C i ≤ (jobsOf (q.sort rrCompare W)).release i +
      ((jobsOf (q.sort rrCompare W)).length i + 500 *
        (m * (((jobsOf (q.sort rrCompare W)).length i + 499) / 500) + m.choose 2)) := by
    rw [hquanta] at hle
    refine hle.trans (Nat.add_le_add_left (Nat.add_le_add_left (Nat.mul_le_mul_left _ ?_) _) _)
    exact Nat.add_le_add (Nat.mul_le_mul_right _ (by omega))
      (Nat.choose_le_choose 2 (show a ≤ m by omega))
  rw [hm, Nat.add_sub_cancel, ← hready, ← hexec]
  push_cast
  rw [Int.add_sub_cancel, Int.add_assoc]
  exact_mod_cast hbound

/-- In the test of README.md P4 completes at clock 5000 or earlier. -/
theorem Rr.turnaround_le_rounds_readme : ∃ t : ℕ,
    Policy.rr.CompletesAt Os.counting Qsort.insertion readmeWorkload 3 t ∧
      (t : Int) ≤ 1500 + 500 + 500 * (3 * 1 + 3) :=
  Rr.turnaround_le_rounds Os.counting Qsort.insertion readmeWorkload Os.counting_healthy (by decide)
    3 (by decide) (Record.load ⟨"P4", 1500, 500⟩) (by decide)

/-! ## The longest turnaround -/

section

variable {os : Os} {q : Qsort} {W V : List Process} {τ : Schedule ℕ} {D : ℕ → ℕ}

/-- A schedule carried over to a table in another order completes the same
    processes at the same times. -/
theorem carry_completesAt (h : SameRecords V W) (hL : (jobsOf V).Legal τ)
    (hD : (jobsOf V).CompletesAt τ D) : ∃ E, (jobsOf W).CompletesAt (carry h τ) E ∧
      ∀ i < V.length, E (position h i) = D i := by
  have hiff : ∀ i < V.length, ∀ t, (jobsOf W).length (position h i) ≤
      (carry h τ).served t (position h i) ↔ D i ≤ t := fun i hi t => by
    rw [hD i (mem_jobsOf.mpr hi) t, carry_served h hL hi,
      show (jobsOf W).length (position h i) = (jobsOf V).length i from
        congrArg Int.toNat (exec_position h hi)]
  obtain ⟨E, hE⟩ : ∃ E, (jobsOf W).CompletesAt (carry h τ) E := by
    refine Jobs.exists_completesAt fun k hk => ?_
    obtain ⟨i, hi, rfl⟩ := exists_position h (mem_jobsOf.mp hk)
    exact ⟨D i, (hiff i hi _).mpr (Nat.le_refl _)⟩
  refine ⟨E, hE, fun i hi => ?_⟩
  have hE' := fun t => hE (position h i) (mem_jobsOf.mpr (position_lt h hi)) t
  exact Nat.le_antisymm ((hE' _).mpr ((hiff i hi _).mpr (Nat.le_refl _)))
    ((hiff i hi _).mp ((hE' _).mp (Nat.le_refl _)))

/-- For every process of FIFO there is one of any other schedule of the same
    records that takes at least as long. -/
theorem Fifo.exists_slower (hos : os.Healthy) (hW : WellFormed W) {C : ℕ → ℕ} {i : ℕ}
    (hC : (jobsOf (q.sort compare W)).CompletesAt (Policy.fifo.ran os q W) C)
    (hi : i < W.length) (h : SameRecords V W) (hL : (jobsOf V).Legal τ)
    (hD : (jobsOf V).CompletesAt τ D) : ∃ k < V.length,
      (C i : Int) - (entry (q.sort compare W) i).ready ≤ D k - (entry V k).ready := by
  have hT : WellFormed (q.sort compare W) := sort_wellFormed hW
  have hlen : (q.sort compare W).length = W.length := q.length_sort _ _
  have hsame : SameRecords V (q.sort compare W) :=
    h.trans (SameRecords.of_perm (Policy.fifo.table_perm q W)).symm
  obtain ⟨E, hE, hED⟩ := carry_completesAt hsame hL hD
  have hF := fcfs_ran (q := q) hos hW
  obtain ⟨k, hk, hle⟩ := hF.max_turnaround rfl (release_sorted hW) (length_pos hW) hC
    (carry_legal hsame hL) hE (show i < (q.sort compare W).length by omega)
  obtain ⟨j, hj, rfl⟩ := exists_position hsame hk
  rw [hED j hj] at hle
  have hrel := hC.release_le hF.legal hT.mem_length_pos
    (mem_jobsOf.mpr (show i < (q.sort compare W).length by omega))
  have hready := hT.release_eq (show i < (q.sort compare W).length by omega)
  have hreadyj := hT.release_eq hk
  have hV := ready_position hsame hj
  have hrelj := hE.release_le (carry_legal hsame hL) hT.mem_length_pos (mem_jobsOf.mpr hk)
  rw [hED j hj] at hrelj
  exact ⟨j, hj, by omega⟩

end

/-- FIFO keeps the longest turnaround as short as it can be.  However long a
    process takes under FIFO, in every schedule of the workload on one CPU, and
    under each of the four schedulers, some process takes at least as long. -/
theorem Fifo.longest_turnaround_least (os : Os) (q : Qsort) (W : List Process)
    (hos : os.Healthy) (hW : WellFormed W) (i : ℕ) (hi : i < W.length) :
    ∃ t : ℕ, Policy.fifo.CompletesAt os q W i t ∧
      (∀ τ (D : ℕ → ℕ), Serves W τ →
        (∀ k < W.length, ∀ u, D k ≤ u ↔ (τ.served u k : Int) = (entry W k).exec) →
        ∃ k < W.length, (t : Int) - (entry (q.sort compare W) i).ready ≤
          D k - (entry W k).ready) ∧
      ∀ (P : Policy) (os' : Os), os'.Healthy → P.Fresh W → ∃ k < W.length, ∃ u,
        P.CompletesAt os' q W k u ∧ (t : Int) - (entry (q.sort compare W) i).ready ≤
          u - (entry (P.table q W) k).ready := by
  have hfresh : Policy.fifo.Fresh W := fun h => by cases h
  obtain ⟨C, hC⟩ := Policy.exists_completesAt (P := .fifo) (q := q) hos hW hfresh
  refine ⟨C i, (Policy.completesAt_iff hos hW hfresh).mpr hC i hi, fun τ D hτ hD => ?_,
    fun P os' hos' hz => ?_⟩
  · refine Fifo.exists_slower hos hW hC hi (List.Perm.refl _) (hτ.legal hW) fun k hk u => ?_
    rw [hD k (mem_jobsOf.mp hk), hτ.served_eq_iff hW (mem_jobsOf.mp hk)]
  · obtain ⟨D, hD⟩ := Policy.exists_completesAt (P := P) (q := q) hos' hW hz
    obtain ⟨k, hk, hle⟩ := Fifo.exists_slower hos hW hC hi
      (SameRecords.of_perm (P.table_perm q W)) (P.describes hos' hW hz).legal hD
    rw [Policy.length_table] at hk
    exact ⟨k, hk, D k, (Policy.completesAt_iff hos' hW hz).mpr hD k hk, hle⟩

theorem Fifo.longest_turnaround_least_readme : ∃ t : ℕ,
    Policy.fifo.CompletesAt Os.counting Qsort.insertion readmeWorkload 3 t ∧
      ∃ k < readmeWorkload.length, ∃ u,
        Policy.psjf.CompletesAt Os.counting Qsort.insertion readmeWorkload k u ∧
          (t : Int) - 1500 ≤ u - (entry readmeWorkload k).ready := by
  obtain ⟨t, ht, -, hleast⟩ := Fifo.longest_turnaround_least Os.counting Qsort.insertion
    readmeWorkload Os.counting_healthy (by decide) 3 (by decide)
  exact ⟨t, ht, hleast .psjf Os.counting Os.counting_healthy fun _ => by decide⟩

end ProcSched
