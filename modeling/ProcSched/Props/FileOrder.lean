/-
  ProcSched.Props.FileOrder

  The order of the lines in the input file.  FIFO, SJF and RR first sort the
  table by ready time, so with distinct ready times they work on the same table
  whatever the file order.  PSJF does not sort: it breaks ties between equal
  remaining times by file order, and is independent of it exactly on workloads
  whose PSJF run has no such tie.
-/

import ProcSched.Lib.Compare
import ProcSched.Refine.Positions

namespace ProcSched

/-- All ready times are distinct. -/
def DistinctReady (W : List Process) : Prop := W.Pairwise fun a b => a.ready ≠ b.ready

instance (W : List Process) : Decidable (DistinctReady W) :=
  inferInstanceAs (Decidable (W.Pairwise fun a b => a.ready ≠ b.ready))

/-- The runs on two tables look the same from outside: every unit goes to the
    same process and every process completes at the same time. -/
def Policy.SameRun (P : Policy) (os : Os) (q : Qsort) (W V : List Process) : Prop :=
  (∀ t, P.ranRecord os q V t = P.ranRecord os q W t) ∧
    ∀ i < W.length, ∀ j < V.length,
      (entry (P.table q W) i).record = (entry (P.table q V) j).record →
        ∀ t, P.CompletesAt os q W i t ↔ P.CompletesAt os q V j t

/-- No scheduler sees in which order the file lists the processes. -/
def FileOrderIrrelevant (os : Os) (q : Qsort) (W : List Process) : Prop :=
  ∀ (P : Policy) (V : List Process), SameRecords W V → P.Fresh V → P.SameRun os q W V

/-- At no clock of the PSJF run two arrived unfinished processes tie for the
    least `exec`. -/
def Psjf.NoTie (os : Os) (W : List Process) : Prop :=
  ∀ k s, Psjf.psjf os W k = .next s → ∀ i < W.length, ∀ j < W.length, i ≠ j →
    (entry s.proc i).ready ≤ s.time → (entry s.proc j).ready ≤ s.time →
      0 < (entry s.proc i).exec → (entry s.proc i).exec = (entry s.proc j).exec →
        ∃ l < W.length, (entry s.proc l).ready ≤ s.time ∧ 0 < (entry s.proc l).exec ∧
          (entry s.proc l).exec < (entry s.proc i).exec

section Tables

variable {V W : List Process}

theorem SameRecords.distinctReady (h : SameRecords W V) (hd : DistinctReady W) :
    DistinctReady V := by
  have hW : ((W.map Process.record).map Record.ready).Nodup := by
    rw [List.map_map]
    exact List.pairwise_map.mpr hd
  have hV := (h.map Record.ready).nodup_iff.mp hW
  rw [List.map_map] at hV
  exact List.pairwise_map.mp hV

/-- Distinct ready times tell the entries apart. -/
theorem DistinctReady.eq_of_record (hd : DistinctReady W) {i j : ℕ} (hi : i < W.length)
    (hj : j < W.length) (h : (entry W i).record = (entry W j).record) : i = j := by
  have hready : (entry W i).ready = (entry W j).ready := congrArg Record.ready h
  rw [entry_eq_getElem hi, entry_eq_getElem hj] at hready
  rcases Nat.lt_trichotomy i j with hlt | heq | hgt
  · exact absurd hready (List.pairwise_iff_getElem.mp hd i j hi hj hlt)
  · exact heq
  · exact absurd hready.symm (List.pairwise_iff_getElem.mp hd j i hj hi hgt)

/-- Two tables in ready order with distinct ready times and the same records
    have them in the same order. -/
theorem position_eq_self (h : SameRecords W V) (hd : DistinctReady W)
    (hsW : W.Pairwise fun a b => a.ready ≤ b.ready)
    (hsV : V.Pairwise fun a b => a.ready ≤ b.ready) {i : ℕ} (hi : i < W.length) :
    position h i = i := by
  have hsorted : ∀ {U : List Process}, (U.Pairwise fun a b => a.ready ≤ b.ready) →
      (U.map Process.record).Pairwise fun a b => a.ready ≤ b.ready := fun hU =>
    List.pairwise_map.mpr hU
  have heq : W.map Process.record = V.map Process.record := by
    refine h.eq_of_pairwise (fun a b ha hb hab hba => ?_) (hsorted hsW) (hsorted hsV)
    obtain ⟨p, hp, rfl⟩ := List.mem_map.mp ha
    obtain ⟨p', hp', rfl⟩ := List.mem_map.mp (h.mem_iff.mpr hb)
    obtain ⟨m, hm, rfl⟩ := List.mem_iff_getElem.mp hp
    obtain ⟨n, hn, rfl⟩ := List.mem_iff_getElem.mp hp'
    have hready : W[m].ready = W[n].ready := Int.le_antisymm hab hba
    rcases Nat.lt_trichotomy m n with hlt | rfl | hgt
    · exact absurd hready (List.pairwise_iff_getElem.mp hd m n hm hn hlt)
    · rfl
    · exact absurd hready.symm (List.pairwise_iff_getElem.mp hd n m hn hm hgt)
  have hV : i < V.length := by rw [← h.length_eq]; exact hi
  apply (h.distinctReady hd).eq_of_record (position_lt h hi) hV
  rw [record_position h hi, ← map_record_getElem (by rw [List.length_map]; exact hi),
    ← map_record_getElem (by rw [List.length_map]; exact hV)]
  exact List.getElem_of_eq heq _

theorem SameRecords.table (P : Policy) (q : Qsort) (h : SameRecords W V) :
    SameRecords (P.table q W) (P.table q V) :=
  ((SameRecords.of_perm (P.table_perm q W)).trans h).trans
    (SameRecords.of_perm (P.table_perm q V)).symm

end Tables

section Runs

variable {P : Policy} {os : Os} {q : Qsort} {V W : List Process} (hos : os.Healthy)
  (hW : WellFormed W) (hz : P.Fresh W) (hzV : P.Fresh V) (hd : DistinctReady W)
  (h : SameRecords W V)
include hos hW hz hzV hd h

/-- The runs look the same if and only if corresponding entries are run. -/
theorem Policy.sameRun_iff : P.SameRun os q W V ↔
    ∀ t, P.ran os q V t = (P.ran os q W t).map (position (h.table P q)) := by
  have hV := h.wellFormed hW
  have hT := h.table P q
  have hdW := P.describes (q := q) hos hW hz
  have hdV := P.describes (q := q) hos hV hzV
  have hdist : DistinctReady (P.table q V) :=
    (h.trans (SameRecords.of_perm (P.table_perm q V)).symm).distinctReady hd
  have hmem : ∀ {t i}, P.ran os q W t = some i → i < (P.table q W).length := fun hrun =>
    mem_jobsOf.mp (hdW.legal _ _ hrun).mem
  constructor
  · rintro ⟨hsame, -⟩ t
    have ht := hsame t
    rw [ranRecord, ranRecord] at ht
    cases hrun : P.ran os q W t with
    | none =>
        rw [hrun, Option.map_none, Option.map_eq_none_iff] at ht
        rw [ht, Option.map_none]
    | some i =>
        rw [hrun, Option.map_some, Option.map_eq_some_iff] at ht
        obtain ⟨j, hj, hrec⟩ := ht
        have hj' := mem_jobsOf.mp (hdV.legal t j hj).mem
        rw [hj, Option.map_some, hdist.eq_of_record hj' (position_lt hT (hmem hrun))
          (hrec.trans (record_position hT (hmem hrun)).symm)]
  · intro hF
    refine ⟨fun t => ?_, fun i hi j hj hrec t => ?_⟩
    · rw [ranRecord, ranRecord, hF t, Option.map_map]
      cases hrun : P.ran os q W t with
      | none => rfl
      | some i =>
          rw [Option.map_some, Option.map_some, Function.comp_apply,
            record_position hT (hmem hrun)]
    · have hi' : i < (P.table q W).length := by rw [P.length_table]; exact hi
      have hj' : j < (P.table q V).length := by rw [P.length_table]; exact hj
      obtain rfl : position hT i = j :=
        hdist.eq_of_record (position_lt hT hi') hj' ((record_position hT hi').trans hrec)
      have hserved : ∀ k, (P.ran os q V).served k (position hT i)
          = (P.ran os q W).served k i := by
        intro k
        rw [show P.ran os q V = carry hT (P.ran os q W) from funext hF]
        exact carry_served hT hdW.legal hi' k
      have hlength := (matches_position hT _).length i (mem_jobsOf.mpr hi') (Nat.le_refl _)
      simp only [CompletesAt, hdW.exec_eq_zero_iff (P.table_wellFormed hW) hi',
        hdV.exec_eq_zero_iff (P.table_wellFormed hV) hj', hserved, hlength]

/-- The sorting schedulers work on the same table. -/
theorem Policy.sameRun_of_sorted (hP : P ≠ psjf) : P.SameRun os q W V := by
  have hV := h.wellFormed hW
  apply (sameRun_iff hos hW hz hzV hd h).mpr
  intro t
  have hdist : DistinctReady (P.table q W) :=
    (SameRecords.of_perm (P.table_perm q W)).symm.distinctReady hd
  have hself := fun i hi => position_eq_self (h.table P q) hdist (table_sorted hW hP)
    (table_sorted hV hP) (i := i) hi
  refine (P.law hos hW hz).matching (matches_position (h.table P q) t) ?_ (P.law hos hV hzV) t
    (Nat.le_refl t)
  intro i hi _ j hj _ hij
  rw [hself i (mem_jobsOf.mp hi), hself j (mem_jobsOf.mp hj)]
  exact hij

end Runs

section Psjf

variable {os : Os} {W : List Process} (hos : os.Healthy) (hW : WellFormed W)
  (hz : ZeroWaiting W)
include hos hW hz

theorem Psjf.noTie_iff :
    Psjf.NoTie os W ↔ (jobsOf W).NoTie (Psjf.followed os (Psjf.start os W)) := by
  constructor
  · intro hno t i j hi hj hij heq
    obtain ⟨s, hs⟩ := Psjf.next_of_eligible hos hW hz hi
    obtain ⟨hI, hB⟩ := Psjf.inv_of_next hos hW hz hs
    have hi' := mem_jobsOf.mp hi.mem
    have hj' := mem_jobsOf.mp hj.mem
    obtain ⟨hri, hpi⟩ := (hI.eligible_iff hW hB hi').mp hi
    obtain ⟨hrj, -⟩ := (hI.eligible_iff hW hB hj').mp hj
    obtain ⟨l, hl, hrl, hpl, hlt⟩ := hno t s hs i hi' j hj' hij hri hrj hpi (by
      rw [hI.exec_eq_left hW hB hi', hI.exec_eq_left hW hB hj', heq])
    refine ⟨l, (hI.eligible_iff hW hB hl).mpr ⟨hrl, hpl⟩, ?_⟩
    rw [hI.exec_eq_left hW hB hl, hI.exec_eq_left hW hB hi'] at hlt
    omega
  · intro hno k s hs i hi j hj hij hri hrj hpi heq
    obtain ⟨hI, hB⟩ := Psjf.inv_of_next hos hW hz hs
    have hpj : 0 < (entry s.proc j).exec := by omega
    rw [hI.exec_eq_left hW hB hi, hI.exec_eq_left hW hB hj] at heq
    obtain ⟨l, hl, hlt⟩ := hno k i j ((hI.eligible_iff hW hB hi).mpr ⟨hri, hpi⟩)
      ((hI.eligible_iff hW hB hj).mpr ⟨hrj, hpj⟩) hij (by omega)
    have hl' := mem_jobsOf.mp hl.mem
    obtain ⟨hrl, hpl⟩ := (hI.eligible_iff hW hB hl').mp hl
    refine ⟨l, hl', hrl, hpl, ?_⟩
    rw [hI.exec_eq_left hW hB hl', hI.exec_eq_left hW hB hi]
    omega

/-- Exchanging two entries of the file exchanges their positions. -/
theorem Psjf.exists_swapped (q : Qsort) (hd : DistinctReady W)
    (hsame : FileOrderIrrelevant os q W) {i j : ℕ} (hi : i < W.length) (hj : j < W.length)
    (hij : i < j) : ∃ (K : Jobs ℕ) (τ : Schedule ℕ) (f : ℕ → ℕ), K.Srpt τ ∧
      (∀ T, (jobsOf W).Matches K f T) ∧ f j < f i ∧
        ∀ t, τ t = (Policy.psjf.ran os q W t).map f := by
  have hperm : ((W.set i W[j]).set j W[i]).Perm W := List.set_set_perm hi hj
  have h : SameRecords W ((W.set i W[j]).set j W[i]) := (SameRecords.of_perm hperm).symm
  have hV := h.wellFormed hW
  have hzV : ZeroWaiting ((W.set i W[j]).set j W[i]) := fun p hp => hz p (hperm.mem_iff.mp hp)
  have hdV := h.distinctReady hd
  have hlen : ((W.set i W[j]).set j W[i]).length = W.length := by simp
  have hposi : position h i = j := by
    refine hdV.eq_of_record (position_lt h hi) (by omega) ((record_position h hi).trans ?_)
    rw [entry_eq_getElem hi, entry_eq_getElem (by omega), List.getElem_set_self]
  have hposj : position h j = i := by
    refine hdV.eq_of_record (position_lt h hj) (by omega) ((record_position h hj).trans ?_)
    rw [entry_eq_getElem hj, entry_eq_getElem (by omega), List.getElem_set_ne (by omega),
      List.getElem_set_self]
  refine ⟨_, _, position h, Policy.law (P := .psjf) (q := q) hos hV fun _ => hzV,
    matches_position h, by omega, ?_⟩
  exact (Policy.sameRun_iff (P := .psjf) hos hW (fun _ => hz) (fun _ => hzV) hd h).mp
    (hsame .psjf _ h fun _ => hzV)

/-- A tie in the PSJF run shows on some order of the file. -/
theorem Psjf.noTie_of_irrelevant (q : Qsort) (hd : DistinctReady W)
    (hsame : FileOrderIrrelevant os q W) : Psjf.NoTie os W := by
  have hS : (jobsOf W).Srpt (Policy.psjf.ran os q W) :=
    Policy.law (P := .psjf) hos hW fun _ => hz
  rw [Psjf.noTie_iff hos hW hz, ← Policy.ran_psjf (q := q) hos hW hz]
  exact hS.noTie fun i hi j hj hij =>
    Psjf.exists_swapped hos hW hz q hd hsame (mem_jobsOf.mp hi) (mem_jobsOf.mp hj) hij

end Psjf

/-- With distinct ready times no scheduler sees the order of the file exactly if
    the PSJF run has no tie for the least remaining time. -/
theorem fileOrder_irrelevant_iff (os : Os) (q : Qsort) (W : List Process) (hos : os.Healthy)
    (hW : WellFormed W) (hz : ZeroWaiting W) (hd : DistinctReady W) :
    FileOrderIrrelevant os q W ↔ Psjf.NoTie os W := by
  refine ⟨Psjf.noTie_of_irrelevant hos hW hz q hd, fun hno P V h hzV => ?_⟩
  by_cases hP : P = .psjf
  · subst hP
    apply (Policy.sameRun_iff hos hW (fun _ => hz) hzV hd h).mpr
    intro t
    rw [Psjf.noTie_iff hos hW hz, ← Policy.ran_psjf (q := q) hos hW hz] at hno
    exact hno.matching
      (Policy.law (P := .psjf) hos hW fun _ => hz)
      (Policy.law (P := .psjf) hos (h.wellFormed hW) hzV) (matches_position h t) t (Nat.le_refl t)
  · exact Policy.sameRun_of_sorted hos hW (fun _ => hz) hzV hd h hP

theorem fileOrder_irrelevant_iff_readme :
    FileOrderIrrelevant Os.counting Qsort.insertion readmeWorkload ↔
      Psjf.NoTie Os.counting readmeWorkload :=
  fileOrder_irrelevant_iff Os.counting Qsort.insertion readmeWorkload Os.counting_healthy
    (by decide) (by decide) (by decide)

/-- P2 arrives when P1 has as much left as P2 needs. -/
def tiedWorkload : List Process := [Record.load ⟨"P1", 0, 3⟩, Record.load ⟨"P2", 1, 2⟩]

/-- At clock 1 the process listed first goes on, so the two orders of the file
    differ. -/
theorem tied_not_irrelevant :
    Os.counting.Healthy ∧ WellFormed tiedWorkload ∧ ZeroWaiting tiedWorkload ∧
      DistinctReady tiedWorkload ∧
      ¬ FileOrderIrrelevant Os.counting Qsort.insertion tiedWorkload := by
  refine ⟨Os.counting_healthy, by decide, by decide, by decide, fun h => ?_⟩
  have hsame := (h .psjf tiedWorkload.reverse
    (SameRecords.of_perm (List.reverse_perm _)).symm fun _ => by decide).1 1
  exact absurd hsame (by decide)

end ProcSched
