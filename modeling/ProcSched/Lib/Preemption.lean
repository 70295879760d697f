/-
  ProcSched.Lib.Preemption

  How shortest remaining first changes the job on the processor.  A job that is
  preempted is still the shortest of the old ones, so it gives way only to a job
  released at that moment (`Srpt.preempted_by_arrival`).  Every change is
  therefore paid for by a finish or by an arrival, which bounds their number
  (`Srpt.changes_le`).
-/

import ProcSched.Lib.Policies

namespace ProcSched

/-- How often before time `t` the processor was given to another job. -/
def Schedule.changes {ι : Type} [DecidableEq ι] (σ : Schedule ι) : ℕ → ℕ
  | 0 => 0
  | t + 1 => σ.changes t + if σ t ≠ none ∧ σ t ≠ σ.prev t then 1 else 0

namespace Jobs

variable {ι : Type} {J : Jobs ι} {σ : Schedule ι} {t : ℕ} {i j r : ι}

/-- The jobs released before time `t`. -/
def releasedBefore (J : Jobs ι) (t : ℕ) : Finset ι := J.jobs.filter fun i => J.release i < t

theorem mem_releasedBefore : i ∈ J.releasedBefore t ↔ i ∈ J.jobs ∧ J.release i < t :=
  Finset.mem_filter

theorem releasedBefore_subset_succ (J : Jobs ι) (t : ℕ) :
    J.releasedBefore t ⊆ J.releasedBefore (t + 1) := by
  intro i hi
  obtain ⟨hmem, hlt⟩ := mem_releasedBefore.mp hi
  exact mem_releasedBefore.mpr ⟨hmem, by omega⟩

/-- An arrival counts from the next unit on. -/
theorem card_releasedBefore_lt (hi : i ∈ J.jobs) (hrel : J.release i = t) :
    (J.releasedBefore t).card < (J.releasedBefore (t + 1)).card := by
  refine Finset.card_lt_card ⟨J.releasedBefore_subset_succ t, fun hsub => ?_⟩
  have hmem := hsub (mem_releasedBefore.mpr ⟨hi, by omega⟩)
  have := (mem_releasedBefore.mp hmem).2
  omega

variable [LinearOrder ι]

/-- Jobs that are run have been released. -/
theorem Legal.releasedBefore_pos (hL : J.Legal σ) (hrun : σ t = some i) :
    0 < (J.releasedBefore (t + 1)).card := by
  have hel := hL t i hrun
  exact Finset.card_pos.mpr ⟨i, mem_releasedBefore.mpr ⟨hel.mem, Nat.lt_succ_of_le hel.released⟩⟩

namespace Srpt

variable (h : J.Srpt σ)
include h

/-- A job gives way while it is unfinished only to one released at that moment,
    which needs no more than the job has left. -/
theorem preempted_by_arrival (hr : J.current σ t = some r) (hj : σ t = some j) (hjr : j ≠ r) :
    J.release j = t ∧ J.left σ t j ≤ J.left σ t r := by
  have hel := h.legal t j hj
  have helr := h.legal.eligible_current hr
  have hle : J.left σ t j ≤ J.left σ t r := by
    have := h.least t j r hj helr
    omega
  refine ⟨?_, hle⟩
  by_contra hne
  obtain ⟨hprev, -⟩ := current_eq_some.mp hr
  cases t with
  | zero => simp at hprev
  | succ u =>
      -- `j` was there a unit ago and lost against `r`, which has come closer to its end since
      have hrel := hel.released
      have hserved : σ.served (u + 1) j = σ.served u j := Schedule.served_succ_other (by
        rw [show σ u = some r from hprev]
        exact fun he => hjr (Option.some.inj he).symm)
      have hunf := hel.unfinished
      have hold : J.Eligible σ u j := ⟨hel.mem, by omega, by omega⟩
      have hleast := h.least u r j hprev hold
      have hself := Schedule.served_succ_self (σ := σ) hprev
      have hunfr := helr.unfinished
      simp only [left, hserved, hself] at hle hleast hunfr
      omega

/-- Changes are paid for by finishes, by the job on the processor and by
    arrivals; the first arrival pays for two. -/
theorem changes_invariant (hpos : ∀ i ∈ J.jobs, 0 < J.length i) (t : ℕ) :
    ((J.releasedBefore t).card = 0 → σ.changes t = 0) ∧
      (0 < (J.releasedBefore t).card → σ.changes t + 1 ≤
        J.completed σ t + (J.current σ t).toList.length + (J.releasedBefore t).card) := by
  induction t with
  | zero =>
      refine ⟨fun _ => rfl, fun hlt => ?_⟩
      obtain ⟨i, hi⟩ := Finset.card_pos.mp hlt
      exact absurd (mem_releasedBefore.mp hi).2 (Nat.not_lt_zero _)
  | succ t ih =>
      obtain ⟨hzero, hbound⟩ := ih
      have hmono := Finset.card_le_card (J.releasedBefore_subset_succ t)
      have hcompleted := completed_succ (J := J) fun i => h.legal t i
      cases hrun : σ t with
      | none =>
          have hchanges : σ.changes (t + 1) = σ.changes t := by
            rw [Schedule.changes, hrun, if_neg fun hc => hc.1 rfl, Nat.add_zero]
          have hcur : J.current σ t = none := by
            cases hc : J.current σ t with
            | none => rfl
            | some r => exact absurd hrun (h.busy t r (h.legal.eligible_current hc))
          rw [hrun, if_neg fun hc => hc.1 rfl, Nat.add_zero] at hcompleted
          rw [hcur, Option.toList_none, List.length_nil] at hbound
          refine ⟨fun he => ?_, fun hlt => ?_⟩
          · rw [hchanges]
            exact hzero (by omega)
          · -- an arrival in an idle unit would be run
            have hold : 0 < (J.releasedBefore t).card := by
              by_contra hnone
              obtain ⟨i, hi⟩ := Finset.card_pos.mp hlt
              obtain ⟨hmem, hrel⟩ := mem_releasedBefore.mp hi
              have hnot : ¬ J.release i < t := fun hlt' =>
                hnone (Finset.card_pos.mpr ⟨i, mem_releasedBefore.mpr ⟨hmem, hlt'⟩⟩)
              refine h.busy t i ⟨hmem, by omega, ?_⟩ hrun
              rw [h.legal.served_eq_zero (by omega)]
              exact hpos i hmem
            have := hbound hold
            omega
      | some i =>
          have hel := h.legal t i hrun
          have harr := h.legal.releasedBefore_pos hrun
          -- the unit either ends its job or leaves it on the processor
          have hspent : J.completed σ (t + 1) + (J.current σ (t + 1)).toList.length
              = J.completed σ t + 1 := by
            rw [hcompleted, hrun]
            cases hc : J.current σ (t + 1) <;> simp
          refine ⟨fun he => by omega, fun _ => ?_⟩
          have hchange : σ.changes (t + 1) ≤ σ.changes t + 1 := by
            rw [Schedule.changes]
            split <;> omega
          cases hcur : J.current σ t with
          | none =>
              rw [hcur, Option.toList_none, List.length_nil] at hbound
              omega
          | some r =>
              have hold : 0 < (J.releasedBefore t).card := by
                obtain ⟨hprev, -⟩ := current_eq_some.mp hcur
                cases t with
                | zero => simp at hprev
                | succ u => exact h.legal.releasedBefore_pos (t := u) hprev
              have hle := hbound hold
              rw [hcur, Option.toList_some, List.length_singleton] at hle
              by_cases hir : i = r
              · -- the same job goes on
                have hsame : σ.changes (t + 1) = σ.changes t := by
                  rw [Schedule.changes, hrun, (current_eq_some.mp hcur).1, hir]
                  simp
                omega
              · have hrel := (h.preempted_by_arrival hcur hrun hir).1
                have := card_releasedBefore_lt hel.mem hrel
                omega

/-- By the time `n` jobs are finished the processor was given to another job at
    most `2 * n - 1` times. -/
theorem changes_le (hpos : ∀ i ∈ J.jobs, 0 < J.length i) (hne : J.jobs.Nonempty)
    (hfin : J.Finished σ t) : σ.changes t + 1 ≤ 2 * J.jobs.card := by
  obtain ⟨hzero, hbound⟩ := h.changes_invariant hpos t
  have hcard : (J.releasedBefore t).card ≤ J.jobs.card := Finset.card_filter_le _ _
  have hcompleted := J.completed_le σ t
  have hcur : J.current σ t = none := by
    cases hc : J.current σ t with
    | none => rfl
    | some r =>
        have hel := h.legal.eligible_current hc
        exact absurd hel.unfinished (Nat.not_lt.mpr (hfin r hel.mem))
  rw [hcur, Option.toList_none, List.length_nil] at hbound
  have hjobs := Finset.card_pos.mpr hne
  rcases Nat.eq_zero_or_pos (J.releasedBefore t).card with he | hlt
  · have := hzero he
    omega
  · have := hbound hlt
    omega

end Srpt

end Jobs
end ProcSched
