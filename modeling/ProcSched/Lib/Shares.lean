/-
  ProcSched.Lib.Shares

  What a round robin gives to each job.  As long as nobody finishes, two jobs
  that could be run all the time take turns: `lead` says by how many units one
  may be ahead of the other, and every unit keeps the account
  (`RoundRobin.lead_step`).  A job is put on the processor at most once for each
  quantum it needs (`RoundRobin.dispatches_le`).
-/

import ProcSched.Lib.Starvation

namespace ProcSched

namespace Schedule

variable {ι : Type} [DecidableEq ι] {σ : Schedule ι} {t : ℕ} {i : ι}

/-- How often before time `t` job `i` was put on the processor. -/
def dispatches (σ : Schedule ι) : ℕ → ι → ℕ
  | 0, _ => 0
  | t + 1, i => dispatches σ t i + if σ t = some i ∧ σ.prev t ≠ some i then 1 else 0

@[simp] theorem dispatches_zero (σ : Schedule ι) (i : ι) : σ.dispatches 0 i = 0 := rfl

theorem dispatches_of_starts (h : σ.Starts t i) :
    σ.dispatches (t + 1) i = σ.dispatches t i + 1 := by
  rw [dispatches, if_pos ⟨h.1, h.2⟩]

theorem dispatches_of_not (h : ¬ σ.Starts t i) : σ.dispatches (t + 1) i = σ.dispatches t i := by
  rw [dispatches, if_neg (show ¬ (σ t = some i ∧ σ.prev t ≠ some i) from h), Nat.add_zero]

end Schedule

namespace Jobs

variable {ι : Type} [LinearOrder ι] {J : Jobs ι} {σ : Schedule ι} {quantum s t d : ℕ}
  {r y i j : ι}

/-- On the way from `r` job `i` is met before `j`. -/
def Before (r i j : ι) : Prop := r < i ∧ i < j ∨ i < j ∧ j < r ∨ j < r ∧ r < i

instance (r i j : ι) : Decidable (Before r i j) :=
  inferInstanceAs (Decidable (r < i ∧ i < j ∨ i < j ∧ j < r ∨ j < r ∧ r < i))

/-- The units `i` is ahead of `j` since `i` was last due before `j`, while `r` is
    run. -/
def lead (σ : Schedule ι) (quantum t : ℕ) (r i j : ι) : ℕ :=
  if r = i then phase σ quantum t
  else if r = j then quantum - phase σ quantum t
  else if Before r i j then 0 else quantum

theorem lead_le (hq : 0 < quantum) : lead σ quantum t r i j ≤ quantum := by
  have := phase_lt (σ := σ) (t := t) hq
  rw [lead]
  split_ifs <;> omega

/-- Going on to the next job does not change who of two others is met first. -/
theorem before_next (hi : J.Eligible σ t i) (hj : J.Eligible σ t j) (h : J.NextAfter σ t r y)
    (hrj : r ≠ j) (hyi : y ≠ i) : Before y i j ↔ Before r i j := by
  rcases h with ⟨hry, hnext⟩ | ⟨hyr, hwrap⟩
  · have hi' := hnext i hi
    have hj' := hnext j hj
    simp only [Before]
    grind
  · have hi' := hwrap i hi
    have hj' := hwrap j hj
    simp only [Before]
    grind

/-- A job that has just been run is met last. -/
theorem not_before_after (hj : J.Eligible σ t j) (h : J.NextAfter σ t i y) : ¬ Before y i j := by
  rcases h with ⟨hiy, hnext⟩ | ⟨hyi, hwrap⟩
  · have hj' := hnext j hj
    simp only [Before]
    grind
  · have hj' := hwrap j hj
    simp only [Before]
    grind

theorem before_after (hi : J.Eligible σ t i) (h : J.NextAfter σ t j y) (hij : i ≠ j)
    (hyi : y ≠ i) : Before y i j := by
  rcases h with ⟨hjy, hnext⟩ | ⟨hle, hwrap⟩
  · rcases lt_or_gt_of_ne hij with hlt | hgt
    · exact Or.inr (Or.inl ⟨hlt, hjy⟩)
    · exact Or.inr (Or.inr ⟨hjy, lt_of_le_of_ne (hnext i hi hgt) hyi⟩)
  · exact Or.inl ⟨lt_of_le_of_ne (hwrap i hi).2 hyi, lt_of_le_of_ne (hwrap i hi).1 hij⟩

/-- The next job is met first. -/
theorem next_before (hj : J.Eligible σ t j) (h : J.NextAfter σ t r i) (hij : i ≠ j)
    (hrj : r ≠ j) : Before r i j := by
  rcases h with ⟨hri, hnext⟩ | ⟨hle, hwrap⟩
  · rcases lt_or_gt_of_ne hrj with hlt | hgt
    · exact Or.inl ⟨hri, lt_of_le_of_ne (hnext j hj hlt) hij⟩
    · exact Or.inr (Or.inr ⟨hgt, hri⟩)
  · exact Or.inr (Or.inl ⟨lt_of_le_of_ne (hwrap j hj).2 hij,
      lt_of_le_of_ne (hwrap j hj).1 hrj.symm⟩)

theorem not_before_next (hi : J.Eligible σ t i) (h : J.NextAfter σ t r j) : ¬ Before r i j := by
  rcases h with ⟨hrj, hnext⟩ | ⟨hle, hwrap⟩
  · have hi' := hnext i hi
    simp only [Before]
    grind
  · have hi' := hwrap i hi
    simp only [Before]
    grind

/-- The next eligible job is another one, if there is another one. -/
theorem NextAfter.ne (h : J.NextAfter σ t r y) (hj : J.Eligible σ t j) (hrj : r ≠ j) : y ≠ r := by
  rintro rfl
  rcases h with ⟨hlt, -⟩ | ⟨-, hwrap⟩
  · exact lt_irrefl y hlt
  · exact hrj (le_antisymm (hwrap j hj).2 (hwrap j hj).1)

section RoundRobin

variable (h : J.RoundRobin quantum σ) (hq : 0 < quantum)
include h hq

/-- The account after one unit. -/
theorem RoundRobin.lead_step (hr : σ t = some r) (hy : σ (t + 1) = some y)
    (hunf : σ.served (t + 1) r < J.length r) (hi : J.Eligible σ (t + 1) i)
    (hj : J.Eligible σ (t + 1) j) (hij : i ≠ j) :
    lead σ quantum (t + 1) y i j + (if r = j then 1 else 0) =
      lead σ quantum t r i j + if r = i then 1 else 0 := by
  have hphase := phase_lt (σ := σ) (t := t) hq
  rcases h.next_cases hq hr hy with ⟨rfl, hnext⟩ | ⟨hlast, hzero, hnext⟩ | ⟨hend, -⟩
  · -- within a quantum
    have hphase' := phase_lt (σ := σ) (t := t + 1) hq
    by_cases hyi : y = i
    · rw [lead, lead, if_pos hyi, if_pos hyi, if_pos hyi, if_neg (hyi ▸ hij), hnext]
    · by_cases hyj : y = j
      · rw [lead, lead, if_neg hyi, if_neg hyi, if_neg hyi, if_pos hyj, if_pos hyj, if_pos hyj]
        omega
      · rw [lead, lead, if_neg hyi, if_neg hyi, if_neg hyi, if_neg hyj, if_neg hyj, if_neg hyj]
  · -- at the end of one the other job is due
    have hyr : y ≠ r := by
      by_cases hri : r = i
      · exact hnext.ne hj (hri ▸ hij)
      · exact hnext.ne hi hri
    by_cases hri : r = i
    · subst hri
      have hlead : lead σ quantum (t + 1) y r j = quantum := by
        rw [lead, if_neg hyr, hzero, if_neg (not_before_after hj hnext), Nat.sub_zero, ite_self]
      rw [hlead, if_neg hij, if_pos rfl, lead, if_pos rfl]
      omega
    · by_cases hrj : r = j
      · subst hrj
        have hlead : lead σ quantum (t + 1) y i r = 0 := by
          by_cases hyi : y = i
          · rw [lead, if_pos hyi, hzero]
          · rw [lead, if_neg hyi, if_neg hyr, if_pos (before_after hi hnext hij hyi)]
        rw [hlead, if_pos rfl, if_neg hri, lead, if_neg hri, if_pos rfl]
        omega
      · rw [if_neg hri, if_neg hrj, lead, lead, if_neg hri, if_neg hrj, hzero]
        -- whoever of the two is due stays due
        by_cases hyi : y = i
        · have hbefore : Before r i j := by
            subst hyi
            exact next_before hj hnext hij hrj
          rw [if_pos hyi, if_pos hbefore]
        · by_cases hyj : y = j
          · have hbefore : ¬ Before r i j := by
              subst hyj
              exact not_before_next hi hnext
            rw [if_neg hyi, if_pos hyj, if_neg hbefore, Nat.sub_zero]
          · rw [if_neg hyi, if_neg hyj]
            simp only [before_next hi hj hnext hrj hyi]
  · exact absurd hunf (not_lt.mpr hend)

/-- Without a finish in between, two jobs get the same but for a quantum. -/
theorem RoundRobin.shares (hi : J.Eligible σ s i) (hi' : J.Eligible σ (s + d) i)
    (hj : J.Eligible σ s j) (hj' : J.Eligible σ (s + d) j)
    (hno : ∀ u r, s ≤ u → u < s + d → σ u = some r → σ.served (u + 1) r < J.length r) :
    σ.served (s + d) i + σ.served s j ≤ σ.served (s + d) j + σ.served s i + quantum := by
  by_cases hij : i = j
  · subst hij
    omega
  obtain ⟨r, hr⟩ := Option.ne_none_iff_exists'.mp (h.busy s i hi)
  have hrun : ∀ m ≤ d, ∃ y, σ (s + m) = some y ∧
      lead σ quantum (s + m) y i j + σ.served (s + m) j + σ.served s i =
        lead σ quantum s r i j + σ.served (s + m) i + σ.served s j := by
    intro m
    induction m with
    | zero =>
        refine fun _ => ⟨r, hr, ?_⟩
        rw [Nat.add_zero]
        omega
    | succ m ih =>
        intro hm
        obtain ⟨x, hx, heq⟩ := ih (by omega)
        have hel : ∀ k, J.Eligible σ s k → J.Eligible σ (s + d) k → J.Eligible σ (s + m + 1) k :=
          fun k hk hk' => hk.between hk' (by omega) (by omega)
        obtain ⟨y, hy⟩ := Option.ne_none_iff_exists'.mp (h.busy _ i (hel i hi hi'))
        have hstep := h.lead_step hq hx hy (hno _ x (by omega) (by omega) hx) (hel i hi hi')
          (hel j hj hj') hij
        refine ⟨y, hy, ?_⟩
        rw [show s + (m + 1) = s + m + 1 from rfl]
        simp only [Schedule.served_succ, hx, Option.some.injEq]
        omega
  obtain ⟨y, -, heq⟩ := hrun d (Nat.le_refl d)
  have hstart := lead_le (σ := σ) (t := s) (r := r) (i := i) (j := j) hq
  have hend := lead_le (σ := σ) (t := s + d) (r := y) (i := i) (j := j) hq
  omega

/-! ## Dispatches -/

/-- Each dispatch but the current one has given the job a quantum. -/
theorem RoundRobin.dispatches_invariant (t : ℕ) (hunf : σ.served t i < J.length i) :
    (σ t = some i → quantum * σ.dispatches (t + 1) i + phase σ quantum t + 1 ≤
        σ.served (t + 1) i + quantum) ∧
      (σ t ≠ some i → quantum * σ.dispatches (t + 1) i ≤ σ.served (t + 1) i) := by
  induction t with
  | zero =>
      constructor
      · intro hrun
        have hs : σ.Starts 0 i := ⟨hrun, by simp⟩
        have hserved := Schedule.served_succ_self hrun
        rw [phase_of_starts hs, Schedule.dispatches_of_starts hs, Schedule.dispatches_zero]
        omega
      · intro hrun
        rw [Schedule.dispatches_of_not fun hs => hrun hs.1, Schedule.dispatches_zero, Nat.mul_zero]
        exact Nat.zero_le _
  | succ t ih =>
      have hlt := lt_of_le_of_lt (Schedule.served_le_succ σ t i) hunf
      obtain ⟨hon, hoff⟩ := ih hlt
      constructor
      · intro hrun
        have hserved := Schedule.served_succ_self hrun
        by_cases hprev : σ t = some i
        · -- still the same dispatch
          have hle := hon hprev
          have hsame : ¬ σ.Starts (t + 1) i := fun hs => hs.2 hprev
          rw [Schedule.dispatches_of_not hsame]
          rcases h.next_cases hq hprev hrun with ⟨-, hnext⟩ | ⟨hlast, hzero, -⟩ | ⟨-, hne, -⟩
          · omega
          · omega
          · exact absurd rfl hne
        · have hle := hoff hprev
          rw [Schedule.dispatches_of_starts ⟨hrun, hprev⟩, phase_of_starts ⟨hrun, hprev⟩,
            Nat.mul_succ]
          omega
      · intro hrun
        rw [Schedule.dispatches_of_not fun hs => hrun hs.1, Schedule.served_succ_other hrun]
        by_cases hprev : σ t = some i
        · -- it has been taken from the processor at the end of a quantum
          have hle := hon hprev
          have hel := (h.legal t i hprev)
          obtain ⟨y, hy⟩ := Option.ne_none_iff_exists'.mp
            (h.busy (t + 1) i ⟨hel.mem, by have := hel.released; omega, hunf⟩)
          rcases h.next_cases hq hprev hy with ⟨rfl, -⟩ | ⟨hlast, -, -⟩ | ⟨hend, -, -⟩
          · exact absurd hy hrun
          · omega
          · omega
        · exact hoff hprev

/-- A job is put on the processor at most once for each quantum it needs. -/
theorem RoundRobin.dispatches_le (t : ℕ) (i : ι) :
    σ.dispatches t i ≤ (J.length i + quantum - 1) / quantum := by
  induction t with
  | zero => exact Nat.zero_le _
  | succ t ih =>
      by_cases hs : σ.Starts t i
      · have hle := (h.dispatches_invariant hq t (h.legal t i hs.1).unfinished).1 hs.1
        have hlen := h.legal.served_le (t + 1) (i := i)
        rw [Nat.le_div_iff_mul_le hq, Nat.mul_comm]
        omega
      · rw [Schedule.dispatches_of_not hs]
        exact ih

end RoundRobin

/-- A job that has had a unit has been put on the processor. -/
theorem dispatches_pos (h : 0 < σ.served t i) : 0 < σ.dispatches t i := by
  induction t with
  | zero => simp at h
  | succ t ih =>
      by_cases hs : σ.Starts t i
      · rw [Schedule.dispatches_of_starts hs]
        exact Nat.succ_pos _
      · rw [Schedule.dispatches_of_not hs]
        refine ih ?_
        by_cases hrun : σ t = some i
        · -- in the middle of a dispatch
          have hprev : σ.prev t = some i := not_not.mp fun hne => hs ⟨hrun, hne⟩
          cases t with
          | zero => simp at hprev
          | succ u =>
              rw [Schedule.served_succ_self (σ := σ) hprev]
              exact Nat.succ_pos _
        · rwa [Schedule.served_succ_other hrun] at h

end Jobs
end ProcSched
