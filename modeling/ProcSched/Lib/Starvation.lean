/-
  ProcSched.Lib.Starvation

  How long a round robin that starts over after every finish can keep a job
  waiting.  Two finishes bound a rotation, in which every other job gets at most
  one quantum before the waiting one; every finish leaves one job less for the
  next rotation.  `wait` counts the quanta this allows, and no unit of time
  leaves it as it is (`RoundRobin.wait_step`).  The quanta of the job itself
  added, it bounds the time to its completion (`RoundRobin.served_of_wait`).
-/

import ProcSched.Lib.Rotation
import Mathlib.Data.Nat.Choose.Basic

namespace ProcSched
namespace Jobs

open Finset

variable {ι : Type} [LinearOrder ι] {J : Jobs ι} {σ : Schedule ι} {quantum s t d : ℕ}
  {r y z j : ι}

/-- The unfinished jobs apart from `z`. -/
def others (J : Jobs ι) (σ : Schedule ι) (t : ℕ) (z : ι) : Finset ι := (J.unfinished σ t).erase z

/-- Those of them met on the way from `r`, itself included, round to `z`. -/
def ahead (J : Jobs ι) (σ : Schedule ι) (t : ℕ) (r z : ι) : Finset ι :=
  (J.others σ t z).filter fun j => r ≤ j ∧ j < z ∨ z < r ∧ (r ≤ j ∨ j < z)

/-- The units of the current quantum gone by at time `t`. -/
def phase (σ : Schedule ι) (quantum t : ℕ) : ℕ := (t - σ.lastStart (t + 1)) % quantum

/-- The units others may get before `z` is next, the quantum of `r` counted in
    full: one quantum for each job ahead, and for each pair of the others, one of
    which lets the rotation start over before the other. -/
def wait (J : Jobs ι) (σ : Schedule ι) (quantum t : ℕ) (r z : ι) : ℕ :=
  quantum * ((J.ahead σ t r z).card + (J.others σ t z).card.choose 2)

/-- The rotations `z` has to go through after the current one. -/
def rounds (J : Jobs ι) (σ : Schedule ι) (quantum t : ℕ) (r z : ι) : ℕ :=
  (J.left σ t z - 1 + if r = z then phase σ quantum t else 0) / quantum

/-- The units until `z` is finished, `r` being run: its own, those of the others
    before its turn, and a quantum of each of them in every further rotation. -/
def need (J : Jobs ι) (σ : Schedule ι) (quantum t : ℕ) (r z : ι) : ℕ :=
  J.left σ t z + J.wait σ quantum t r z +
    quantum * ((J.others σ t z).card * J.rounds σ quantum t r z)

/-- The part of `wait` gone by. -/
def spent (σ : Schedule ι) (quantum t : ℕ) (r z : ι) : ℕ :=
  if r = z then 0 else phase σ quantum t

theorem mem_others : j ∈ J.others σ t z ↔ j ≠ z ∧ j ∈ J.jobs ∧ σ.served t j < J.length j := by
  rw [others, mem_erase, unfinished, mem_filter]

theorem ahead_subset : J.ahead σ t r z ⊆ J.others σ t z := filter_subset _ _

theorem others_succ_subset : J.others σ (t + 1) z ⊆ J.others σ t z := fun j hj => by
  obtain ⟨hne, hmem, hlt⟩ := mem_others.mp hj
  exact mem_others.mpr ⟨hne, hmem, lt_of_le_of_lt (Schedule.served_le_succ σ t j) hlt⟩

/-- Nobody is ahead of the job that is run itself. -/
theorem ahead_self : J.ahead σ t z z = ∅ :=
  filter_false_of_mem fun j _ => by
    rintro (⟨hle, hlt⟩ | ⟨hlt, -⟩)
    · exact absurd hlt (not_lt.mpr hle)
    · exact lt_irrefl z hlt

theorem wait_self : J.wait σ quantum t z z = quantum * (J.others σ t z).card.choose 2 := by
  rw [wait, ahead_self, card_empty, Nat.zero_add]

theorem mem_ahead_self (hne : r ≠ z) (hr : J.Eligible σ t r) : r ∈ J.ahead σ t r z := by
  refine mem_filter.mpr ⟨mem_others.mpr ⟨hne, hr.mem, hr.unfinished⟩, ?_⟩
  rcases lt_or_gt_of_ne hne with h | h
  · exact Or.inl ⟨le_refl r, h⟩
  · exact Or.inr ⟨h, Or.inl (le_refl r)⟩

/-- Going on to the next eligible job leaves the way behind it. -/
theorem ahead_subset_erase (hne : r ≠ z) (hz : J.Eligible σ (t + 1) z)
    (h : J.NextAfter σ (t + 1) r y) : J.ahead σ (t + 1) y z ⊆ (J.ahead σ t r z).erase r := by
  intro j hj
  obtain ⟨hother, hway⟩ := mem_filter.mp hj
  refine mem_erase.mpr ?_
  rw [ahead, mem_filter, ← and_assoc, and_comm (a := j ≠ r), and_assoc]
  refine ⟨others_succ_subset hother, ?_⟩
  rcases h with ⟨hry, hnext⟩ | ⟨hyr', hwrap⟩
  · -- the next job lies between `r` and `z`, or above both
    rcases lt_or_gt_of_ne hne with hrz | hzr
    · have hyz := hnext z hz hrz
      rcases hway with ⟨hyj, hjz⟩ | ⟨hzy, -⟩
      · exact ⟨(hry.trans_le hyj).ne', Or.inl ⟨hry.le.trans hyj, hjz⟩⟩
      · exact absurd hyz (not_le.mpr hzy)
    · have hzy := hzr.trans hry
      rcases hway with ⟨hyj, hjz⟩ | ⟨-, hyj | hjz⟩
      · exact absurd (hzy.trans_le hyj) (not_lt.mpr hjz.le)
      · exact ⟨(hry.trans_le hyj).ne', Or.inr ⟨hzr, Or.inl (hry.le.trans hyj)⟩⟩
      · exact ⟨(hjz.trans hzr).ne, Or.inr ⟨hzr, Or.inr hjz⟩⟩
  · -- past the end of the order, to the first eligible job
    obtain ⟨hzr, hyz⟩ := hwrap z hz
    have hzr' := lt_of_le_of_ne hzr hne.symm
    rcases hway with ⟨hyj, hjz⟩ | ⟨hzy, -⟩
    · exact ⟨(hjz.trans hzr').ne, Or.inr ⟨hzr', Or.inr hjz⟩⟩
    · exact absurd hyz (not_le.mpr hzy)

/-- The bound at any time: everybody ahead. -/
theorem wait_le : J.wait σ quantum t r z ≤
    quantum * ((J.others σ t z).card + 1).choose 2 := by
  rw [Nat.choose_succ_succ', Nat.choose_one_right]
  exact Nat.mul_le_mul_left _ (Nat.add_le_add_right (card_le_card ahead_subset) _)

/-! ## One unit -/

theorem phase_lt (hq : 0 < quantum) : phase σ quantum t < quantum := Nat.mod_lt _ hq

/-- A job that has just been put on the processor has its whole quantum. -/
theorem phase_of_starts (h : σ.Starts t y) : phase σ quantum t = 0 := by
  have hnew : σ t ≠ none ∧ σ t ≠ σ.prev t := by
    rw [h.1]
    exact ⟨Option.some_ne_none y, h.2.symm⟩
  rw [phase, Schedule.lastStart_succ, if_pos hnew, Nat.sub_self, Nat.zero_mod]

omit [LinearOrder ι] in
theorem starts_succ (hr : σ t = some r) (hy : σ (t + 1) = some y) (hne : y ≠ r) :
    σ.Starts (t + 1) y := by
  refine ⟨hy, fun h => hne ?_⟩
  rw [Schedule.prev_succ, hr] at h
  exact (Option.some.inj h).symm

theorem lastStart_kept (hr : σ t = some r) (hy : σ (t + 1) = some r) :
    σ.lastStart (t + 1 + 1) = σ.lastStart (t + 1) := by
  rw [Schedule.lastStart_succ, if_neg]
  rw [Schedule.prev_succ, hr, hy]
  exact fun h => h.2 rfl

section RoundRobin

variable (h : J.RoundRobin quantum σ) (hq : 0 < quantum)
include h hq

/-- The unit after one of `r`: `r` goes on with its quantum, the quantum is over,
    or `r` has finished. -/
theorem RoundRobin.next_cases (hr : σ t = some r) (hy : σ (t + 1) = some y) :
    (y = r ∧ phase σ quantum (t + 1) = phase σ quantum t + 1) ∨
      (phase σ quantum t + 1 = quantum ∧ phase σ quantum (t + 1) = 0 ∧
        J.NextAfter σ (t + 1) r y) ∨
      (J.length r ≤ σ.served (t + 1) r ∧ y ≠ r ∧ phase σ quantum (t + 1) = 0) := by
  obtain ⟨hlast, -⟩ := Schedule.starts_lastStart (show σ.prev (t + 1) = some r from hr)
  have hsucc : t + 1 - σ.lastStart (t + 1) = t - σ.lastStart (t + 1) + 1 := by omega
  have hlt : phase σ quantum t < quantum := phase_lt hq
  have hmod : (t + 1 - σ.lastStart (t + 1)) % quantum = (phase σ quantum t + 1) % quantum := by
    rw [hsucc, phase, Nat.mod_add_mod]
  rcases Nat.lt_or_ge (σ.served (t + 1) r) (J.length r) with hunf | hend
  · have hcur := current_succ hr hunf
    by_cases hbound : (t + 1 - σ.lastStart (t + 1)) % quantum = 0
    · refine Or.inr (Or.inl ⟨?_, ?_, h.rotate _ r y hcur hbound hy⟩)
      · -- only the end of the quantum is divisible by it
        rw [hmod] at hbound
        by_contra hne
        rw [Nat.mod_eq_of_lt (by omega)] at hbound
        exact Nat.succ_ne_zero _ hbound
      · by_cases hyr : y = r
        · subst hyr
          rw [phase, lastStart_kept hr hy]
          exact hbound
        · exact phase_of_starts (starts_succ hr hy hyr)
    · have hsame := h.keep _ r hcur hbound
      rw [hy, Option.some.injEq] at hsame
      subst hsame
      refine Or.inl ⟨rfl, ?_⟩
      rw [phase, lastStart_kept hr hy, hmod]
      rw [hmod] at hbound
      refine Nat.mod_eq_of_lt (lt_of_le_of_ne hlt fun he => hbound ?_)
      rw [he, Nat.mod_self]
  · have hyr : y ≠ r := by
      rintro rfl
      exact h.legal.not_run hend hy
    exact Or.inr (Or.inr ⟨hend, hyr, phase_of_starts (starts_succ hr hy hyr)⟩)

/-- While `z` waits, every unit brings it closer. -/
theorem RoundRobin.wait_step (hr : σ t = some r) (hy : σ (t + 1) = some y) (hne : r ≠ z)
    (hz : J.Eligible σ (t + 1) z) :
    J.wait σ quantum (t + 1) y z + phase σ quantum t + 1 ≤
      J.wait σ quantum t r z + phase σ quantum (t + 1) := by
  have hel := h.legal t r hr
  have hothers : (J.others σ (t + 1) z).card ≤ (J.others σ t z).card :=
    card_le_card others_succ_subset
  have hchoose := Nat.choose_le_choose 2 hothers
  have hphase := phase_lt (σ := σ) (t := t) hq
  rcases h.next_cases hq hr hy with ⟨rfl, hnext⟩ | ⟨hlast, hzero, hnext⟩ | ⟨hend, hyr, hzero⟩
  · have hahead : (J.ahead σ (t + 1) y z).card ≤ (J.ahead σ t y z).card :=
      card_le_card (filter_subset_filter _ others_succ_subset)
    have hle := Nat.mul_le_mul_left quantum (Nat.add_le_add hahead hchoose)
    rw [hnext]
    simp only [wait]
    omega
  · -- the quantum of `r` is over, and `r` is no longer ahead
    have hahead := card_le_card (ahead_subset_erase hne hz hnext)
    rw [card_erase_of_mem (mem_ahead_self hne hel)] at hahead
    have hpos : 0 < (J.ahead σ t r z).card := card_pos.mpr ⟨r, mem_ahead_self hne hel⟩
    have hle := Nat.mul_le_mul_left quantum (show (J.ahead σ (t + 1) y z).card +
      (J.others σ (t + 1) z).card.choose 2 + 1 ≤ (J.ahead σ t r z).card +
        (J.others σ t z).card.choose 2 by omega)
    rw [Nat.mul_succ] at hle
    simp only [wait]
    omega
  · -- `r` has finished: one job less for the rotation that starts now
    have hgone : J.others σ (t + 1) z ⊆ (J.others σ t z).erase r := fun j hj =>
      mem_erase.mpr ⟨fun he => by
        have := (mem_others.mp hj).2.2
        rw [he] at this
        omega, others_succ_subset hj⟩
    have hmem : r ∈ J.others σ t z := ahead_subset (mem_ahead_self hne hel)
    have hless := card_le_card hgone
    rw [card_erase_of_mem hmem] at hless
    have hcard : 0 < (J.others σ t z).card := card_pos.mpr ⟨r, hmem⟩
    have hpos : 0 < (J.ahead σ t r z).card := card_pos.mpr ⟨r, mem_ahead_self hne hel⟩
    have hahead : (J.ahead σ (t + 1) y z).card ≤ (J.others σ (t + 1) z).card :=
      card_le_card ahead_subset
    have hpairs : (J.others σ (t + 1) z).card + (J.others σ (t + 1) z).card.choose 2 ≤
        (J.others σ t z).card.choose 2 := by
      have hsucc := Nat.choose_succ_succ' (J.others σ (t + 1) z).card 1
      rw [Nat.choose_one_right] at hsucc
      rw [← hsucc]
      exact Nat.choose_le_choose 2 (by omega)
    have hle := Nat.mul_le_mul_left quantum (show (J.ahead σ (t + 1) y z).card +
      (J.others σ (t + 1) z).card.choose 2 + 1 ≤ (J.ahead σ t r z).card +
        (J.others σ t z).card.choose 2 by omega)
    rw [Nat.mul_succ] at hle
    simp only [wait]
    omega

/-- A job that has not had the processor since `s` has come closer by every
    unit. -/
theorem RoundRobin.wait_run (hr : σ s = some r) (hz : ∀ u, s ≤ u → u ≤ s + d → J.Eligible σ u z)
    (hno : ∀ u, s ≤ u → u ≤ s + d → σ u ≠ some z) : ∃ y, σ (s + d) = some y ∧
      J.wait σ quantum (s + d) y z + phase σ quantum s + d ≤
        J.wait σ quantum s r z + phase σ quantum (s + d) := by
  induction d with
  | zero => exact ⟨r, hr, Nat.le_refl _⟩
  | succ d ih =>
      obtain ⟨x, hx, hle⟩ := ih (fun u hu hud => hz u hu (by omega)) fun u hu hud =>
        hno u hu (by omega)
      have hel := hz (s + d + 1) (by omega) (Nat.le_refl _)
      obtain ⟨y, hy⟩ := Option.ne_none_iff_exists'.mp (h.busy _ z hel)
      have hne : x ≠ z := by
        rintro rfl
        exact hno (s + d) (by omega) (by omega) hx
      have hstep := h.wait_step hq hx hy hne hel
      refine ⟨y, hy, ?_⟩
      rw [show s + (d + 1) = s + d + 1 from rfl]
      omega

/-- An eligible job gets the processor within a quantum for each pair of
    unfinished jobs. -/
theorem RoundRobin.dispatched (hz : J.Eligible σ s z) :
    ∃ t, s ≤ t ∧ t ≤ s + quantum * ((J.others σ s z).card + 1).choose 2 ∧ σ t = some z := by
  by_contra hnone
  push Not at hnone
  set D := quantum * ((J.others σ s z).card + 1).choose 2
  have hel : ∀ u, s ≤ u → u ≤ s + D → J.Eligible σ u z := fun u hu hud => by
    refine ⟨hz.mem, hz.released.trans hu, ?_⟩
    rw [Schedule.served_eq_of_not_run hu fun v hv hvu => hnone v hv (by omega)]
    exact hz.unfinished
  obtain ⟨r, hr⟩ := Option.ne_none_iff_exists'.mp (h.busy s z hz)
  obtain ⟨y, hy, hle⟩ := h.wait_run hq hr hel hnone
  -- whoever has the processor at the end of that time is still ahead
  have hne : y ≠ z := by
    rintro rfl
    exact hnone _ (by omega) (Nat.le_refl _) hy
  have hpos : 0 < (J.ahead σ (s + D) y z).card :=
    card_pos.mpr ⟨y, mem_ahead_self hne (h.legal _ y hy)⟩
  have hquantum : quantum ≤ J.wait σ quantum (s + D) y z :=
    Nat.le_mul_of_pos_right _ (by omega)
  have hphase := phase_lt (σ := σ) (t := s + D) hq
  have hbound : J.wait σ quantum s r z ≤ D := wait_le
  omega

/-! ## The whole way -/

omit h in
theorem need_le : J.need σ quantum t r z ≤ J.left σ t z + quantum * ((J.others σ t z).card *
    ((J.left σ t z - 1) / quantum + 1) + (J.others σ t z).card.choose 2) := by
  by_cases hrz : r = z
  · have hrounds : J.rounds σ quantum t r z ≤ (J.left σ t z - 1) / quantum + 1 := by
      have hphase := phase_lt (σ := σ) (t := t) hq
      rw [rounds, if_pos hrz, ← Nat.add_div_right _ hq]
      exact Nat.div_le_div_right (by omega)
    have hrot := Nat.mul_le_mul_left quantum
      (Nat.mul_le_mul_left (J.others σ t z).card hrounds)
    rw [need, hrz, wait_self, Nat.mul_add]
    rw [hrz] at hrot
    omega
  · have hahead := Nat.mul_le_mul_left quantum
      (card_le_card (ahead_subset (J := J) (σ := σ) (t := t) (r := r) (z := z)))
    rw [need, rounds, if_neg hrz, Nat.add_zero, wait, Nat.mul_succ, Nat.mul_add, Nat.mul_add,
      Nat.mul_add]
    omega

theorem RoundRobin.spent_lt_need (hr : σ t = some r) (hz : J.Eligible σ t z) :
    spent σ quantum t r z < J.need σ quantum t r z := by
  have hleft : 0 < J.left σ t z := Nat.sub_pos_of_lt hz.unfinished
  by_cases hrz : r = z
  · rw [spent, if_pos hrz, need]
    omega
  · have hpos : 0 < (J.ahead σ t r z).card :=
      card_pos.mpr ⟨r, mem_ahead_self hrz (h.legal t r hr)⟩
    have hquantum : quantum ≤ J.wait σ quantum t r z := Nat.le_mul_of_pos_right _ (by omega)
    have hphase := phase_lt (σ := σ) (t := t) hq
    rw [spent, if_neg hrz, need]
    omega

omit h hq in
/-- Nobody else loses a unit while `z` is run. -/
theorem others_of_run (hr : σ t = some z) : J.others σ (t + 1) z = J.others σ t z := by
  ext j
  rw [mem_others, mem_others]
  refine and_congr_right fun hne => ?_
  rw [Schedule.served_succ_other fun he => hne (Option.some.inj (he.symm.trans hr))]

/-- The units until `z` is finished: its own, the wait for its turn, and a
    rotation for each quantum it needs after the current one. -/
theorem RoundRobin.need_step (hr : σ t = some r) (hy : σ (t + 1) = some y)
    (hz : J.Eligible σ (t + 1) z) :
    J.need σ quantum (t + 1) y z + spent σ quantum t r z + 1 ≤
      J.need σ quantum t r z + spent σ quantum (t + 1) y z := by
  by_cases hrz : r = z
  · subst hrz
    have hothers := others_of_run (J := J) hr
    have hleft : J.left σ t r = J.left σ (t + 1) r + 1 := by
      have hserved := Schedule.served_succ_self hr
      have hunf := hz.unfinished
      simp only [left]
      omega
    have hpos : 0 < J.left σ (t + 1) r := Nat.sub_pos_of_lt hz.unfinished
    rcases h.next_cases hq hr hy with ⟨rfl, hnext⟩ | ⟨hlast, hzero, -⟩ | ⟨hend, -⟩
    · -- within the quantum
      have hrounds : J.rounds σ quantum (t + 1) y y = J.rounds σ quantum t y y := by
        simp only [rounds, if_true, hnext]
        congr 1
        omega
      simp only [need, spent, if_true, wait_self, hothers, hrounds]
      omega
    · -- at its end, with one rotation less to go
      have hrounds : J.rounds σ quantum t r r = J.rounds σ quantum (t + 1) y r + 1 := by
        have hphase : (if y = r then phase σ quantum (t + 1) else 0) = 0 := by
          rw [hzero, ite_self]
        rw [rounds, rounds, if_pos rfl, hphase, ← Nat.add_div_right _ hq]
        congr 1
        omega
      have hspent : spent σ quantum (t + 1) y r = 0 := by
        rw [spent, hzero, ite_self]
      have hwait : J.wait σ quantum (t + 1) y r ≤ quantum * (J.others σ t r).card +
          J.wait σ quantum t r r := by
        rw [wait_self, ← Nat.mul_add, ← hothers]
        exact Nat.mul_le_mul_left _ (Nat.add_le_add_right (card_le_card ahead_subset) _)
      rw [need, need, hspent, spent, if_pos rfl, hrounds, hothers, hleft, Nat.mul_succ, Nat.mul_add]
      omega
    · exact absurd hz.unfinished (not_lt.mpr hend)
  · have hleft : J.left σ (t + 1) z = J.left σ t z := by
      rw [left, left, Schedule.served_succ_other fun he => hrz (Option.some.inj (hr.symm.trans he))]
    have hstep := h.wait_step hq hr hy hrz hz
    have hrounds : J.rounds σ quantum (t + 1) y z = J.rounds σ quantum t r z ∧
        spent σ quantum (t + 1) y z = phase σ quantum (t + 1) := by
      by_cases hyz : y = z
      · have hzero : phase σ quantum (t + 1) = 0 :=
          phase_of_starts (starts_succ hr hy fun he => hrz (he.symm.trans hyz))
        simp only [rounds, spent, if_pos hyz, if_neg hrz, hleft, hzero, and_self]
      · simp only [rounds, spent, if_neg hyz, if_neg hrz, hleft, and_self]
    have hrot := Nat.mul_le_mul_left quantum (Nat.mul_le_mul_right (J.rounds σ quantum t r z)
      (card_le_card (others_succ_subset (J := J) (σ := σ) (t := t) (z := z))))
    rw [need, need, hrounds.1, hrounds.2, hleft, spent, if_neg hrz]
    omega

/-- A job with `left` units left is finished after as many units, a quantum of
    each other unfinished job for each of its own, and one for each pair of the
    others. -/
theorem RoundRobin.served_of_wait (hz : J.Eligible σ s z) :
    J.length z ≤ σ.served (s + (J.left σ s z + quantum * ((J.others σ s z).card *
      ((J.left σ s z - 1) / quantum + 1) + (J.others σ s z).card.choose 2))) z := by
  obtain ⟨r, hr⟩ := Option.ne_none_iff_exists'.mp (h.busy s z hz)
  by_contra hlt
  rw [not_le] at hlt
  set D := J.left σ s z + quantum * ((J.others σ s z).card *
    ((J.left σ s z - 1) / quantum + 1) + (J.others σ s z).card.choose 2)
  have hel : ∀ d ≤ D, J.Eligible σ (s + d) z := fun d hd =>
    ⟨hz.mem, hz.released.trans (Nat.le_add_right s d),
      lt_of_le_of_lt (Schedule.served_le_served z (by omega)) hlt⟩
  have hrun : ∀ d ≤ D, ∃ y, σ (s + d) = some y ∧
      J.need σ quantum (s + d) y z + spent σ quantum s r z + d ≤
        J.need σ quantum s r z + spent σ quantum (s + d) y z := by
    intro d
    induction d with
    | zero => exact fun _ => ⟨r, hr, Nat.le_refl _⟩
    | succ d ih =>
        intro hd
        obtain ⟨x, hx, hle⟩ := ih (by omega)
        have hz' := hel (d + 1) hd
        obtain ⟨y, hy⟩ := Option.ne_none_iff_exists'.mp (h.busy _ z hz')
        have hstep := h.need_step hq hx hy hz'
        refine ⟨y, hy, ?_⟩
        rw [show s + (d + 1) = s + d + 1 from rfl]
        omega
  obtain ⟨y, hy, hle⟩ := hrun D (Nat.le_refl D)
  have hspent := h.spent_lt_need hq hy (hel D (Nat.le_refl D))
  have hneed : J.need σ quantum s r z ≤ D := need_le hq
  omega

end RoundRobin

end Jobs
end ProcSched
