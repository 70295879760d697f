/-
  ProcSched.Lib.Compare

  When two policies give the same schedule.  First come first served is a round
  robin exactly if no quantum boundary is contested; shortest job next is
  shortest remaining first exactly if no shorter job arrives while another one
  is running.  And when the names of the jobs do not matter: shortest remaining
  first ignores them exactly if no two jobs tie for the least work left.
-/

import ProcSched.Lib.Policies

namespace ProcSched
namespace Jobs

variable {ι : Type} [LinearOrder ι] {J : Jobs ι} {σ : Schedule ι} {s t : ℕ} {i j : ι}

/-- Under a policy that keeps unfinished jobs, a job put on the processor stays
    there while it is unfinished. -/
theorem runs_through (hkeep : ∀ t r, J.current σ t = some r → σ t = some r) (hs : σ s = some i)
    (hst : s ≤ t) (hunf : σ.served t i < J.length i) : σ t = some i := by
  obtain ⟨d, rfl⟩ := Nat.exists_eq_add_of_le hst
  induction d with
  | zero => exact hs
  | succ d ih =>
      have hbefore := lt_of_le_of_lt (σ.served_le_succ (s + d) i) hunf
      exact hkeep _ i (current_succ (ih (by omega) hbefore) hunf)

/-- A job that runs from `s` on has got all the time since. -/
theorem served_of_runs_through (hkeep : ∀ t r, J.current σ t = some r → σ t = some r)
    (hs : σ s = some i) (hst : s ≤ t) (hunf : σ.served t i < J.length i) :
    σ.served t i = σ.served s i + (t - s) := by
  obtain ⟨d, rfl⟩ := Nat.exists_eq_add_of_le hst
  rw [Nat.add_sub_cancel_left]
  refine Schedule.served_add_of_run fun u hu hlt => runs_through hkeep hs hu ?_
  exact lt_of_le_of_lt (Schedule.served_le_served i hlt.le) hunf

/-- A job is put on the processor only when nobody is carried over. -/
theorem current_eq_none_of_starts (hkeep : ∀ t r, J.current σ t = some r → σ t = some r)
    (hs : σ.Starts s i) : J.current σ s = none := by
  cases hc : J.current σ s with
  | none => rfl
  | some r =>
      have hrun := hkeep s r hc
      rw [hs.1] at hrun
      refine absurd ?_ hs.2
      rw [hrun]
      exact (current_eq_some.mp hc).1

/-- When nobody is carried over, no eligible job has been run yet. -/
theorem served_eq_zero_of_choice (hkeep : ∀ t r, J.current σ t = some r → σ t = some r)
    (hc : J.current σ t = none) (hj : J.Eligible σ t j) : σ.served t j = 0 := by
  rw [Schedule.served_eq_of_not_run (Nat.zero_le t), Schedule.served_zero]
  intro u _ hut hrun
  -- from `u` on `j` would have kept the processor
  obtain ⟨v, rfl⟩ : ∃ v, t = v + 1 := ⟨t - 1, by omega⟩
  have hlast := runs_through hkeep hrun (show u ≤ v by omega)
    (lt_of_le_of_lt (σ.served_le_succ v j) hj.unfinished)
  rw [current_succ hlast hj.unfinished] at hc
  exact absurd hc (Option.some_ne_none j)

/-- A job that is put on the processor has not been run yet. -/
theorem served_eq_zero_of_starts (hkeep : ∀ t r, J.current σ t = some r → σ t = some r)
    (hL : J.Legal σ) (hs : σ.Starts s i) : σ.served s i = 0 :=
  served_eq_zero_of_choice hkeep (current_eq_none_of_starts hkeep hs) (hL s i hs.1)

/-- A job put on the processor gets all its units there, one after the other. -/
theorem run_iff_of_starts (hkeep : ∀ t r, J.current σ t = some r → σ t = some r)
    (hL : J.Legal σ) (hs : σ.Starts s i) :
    σ t = some i ↔ s ≤ t ∧ t < s + J.length i := by
  have hzero := served_eq_zero_of_starts hkeep hL hs
  constructor
  · intro hrun
    have hst : s ≤ t := by
      by_contra hlt
      have hone := Schedule.served_succ_self hrun
      have hmono := Schedule.served_le_served (σ := σ) i (show t + 1 ≤ s by omega)
      omega
    have hunf := (hL t i hrun).unfinished
    have hserved := served_of_runs_through hkeep hs.1 hst hunf
    exact ⟨hst, by omega⟩
  · rintro ⟨hst, hlt⟩
    have hle := σ.served_le_add s (t - s) i
    rw [Nat.add_sub_cancel' hst] at hle
    exact runs_through hkeep hs.1 hst (by omega)

/-- It is finished right after the last of them. -/
theorem served_end_of_starts (hkeep : ∀ t r, J.current σ t = some r → σ t = some r)
    (hL : J.Legal σ) (hs : σ.Starts s i) : σ.served (s + J.length i) i = J.length i := by
  rw [Schedule.served_add_of_run fun u hu hlt => (run_iff_of_starts hkeep hL hs).mpr ⟨hu, hlt⟩,
    served_eq_zero_of_starts hkeep hL hs, Nat.zero_add]

/-! ## First come first served and round robin -/

/-- A quantum boundary of a job that is still unfinished there, while another
    job is eligible. -/
def Contested (J : Jobs ι) (quantum : ℕ) (σ : Schedule ι) : Prop :=
  ∃ i s k j, 1 ≤ k ∧ σ.Starts s i ∧ σ.served (s + quantum * k) i < J.length i ∧
    j ≠ i ∧ J.Eligible σ (s + quantum * k) j

theorem Fcfs.roundRobin_of_not_contested {quantum : ℕ} (h : J.Fcfs σ)
    (hno : ¬ J.Contested quantum σ) : J.RoundRobin quantum σ where
  legal := h.legal
  busy := h.busy
  first := h.first
  keep t r hr _ := h.keep t r hr
  rotate t r i hr hq hi := by
    have hri : r = i := Option.some.inj ((h.keep t r hr).symm.trans hi)
    subst hri
    obtain ⟨hprev, hunf⟩ := current_eq_some.mp hr
    obtain ⟨hlt, hstart, -⟩ := Schedule.starts_lastStart hprev
    obtain ⟨k, hk⟩ := Nat.dvd_of_mod_eq_zero hq
    have ht : σ.lastStart t + quantum * k = t := by omega
    -- at a boundary nobody else is eligible
    have honly : ∀ j, J.Eligible σ t j → j = r := fun j hj => by
      by_contra hjr
      refine hno ⟨r, σ.lastStart t, k, j, ?_, hstart, by rw [ht]; exact hunf, hjr,
        by rw [ht]; exact hj⟩
      rcases Nat.eq_zero_or_pos k with rfl | hpos
      · omega
      · exact hpos
    exact Or.inr ⟨le_refl r, fun j hj => by rw [honly j hj]; exact ⟨le_refl r, le_refl r⟩⟩

theorem Fcfs.not_contested_of_roundRobin {quantum : ℕ} (h : J.Fcfs σ) (hq : 0 < quantum)
    (hRR : J.RoundRobin quantum σ) : ¬ J.Contested quantum σ := by
  rintro ⟨i, s, k, j, hk, hstart, hunf, hji, hj⟩
  have hlt : s < s + quantum * k := Nat.lt_add_of_pos_right (Nat.mul_pos hq hk)
  have hrun : ∀ u, s ≤ u → u ≤ s + quantum * k → σ u = some i := fun u hu hle =>
    runs_through h.keep hstart.1 hu (lt_of_le_of_lt (Schedule.served_le_served i hle) hunf)
  have hlast : σ.lastStart (s + quantum * k) = s :=
    Schedule.lastStart_of_run hstart hlt fun u hu hlt => hrun u hu hlt.le
  have hprev : σ.prev (s + quantum * k) = some i := by
    obtain ⟨d, hd⟩ := Nat.exists_eq_add_of_lt hlt
    rw [hd, Schedule.prev_succ]
    exact hrun (s + d) (by omega) (by omega)
  -- the quantum of `i` is over, so the processor goes on to `j`
  have hnext := hRR.rotate _ i i (current_eq_some.mpr ⟨hprev, hunf⟩)
    (by rw [hlast, Nat.add_sub_cancel_left, Nat.mul_mod_right]) (hrun _ hlt.le (Nat.le_refl _))
  rcases hnext with ⟨hii, -⟩ | ⟨-, hall⟩
  · exact lt_irrefl i hii
  · exact hji (le_antisymm (hall j hj).1 (hall j hj).2)

/-- First come first served and round robin agree exactly when no quantum
    boundary of the former is contested. -/
theorem Fcfs.eq_roundRobin_iff {quantum : ℕ} {τ : Schedule ι} (h : J.Fcfs σ) (hq : 0 < quantum)
    (hτ : J.RoundRobin quantum τ) : (∀ t, σ t = τ t) ↔ ¬ J.Contested quantum σ := by
  constructor
  · intro heq
    obtain rfl : σ = τ := funext heq
    exact h.not_contested_of_roundRobin hq hτ
  · intro hno t
    have hmatch := RoundRobin.matching (Matches.refl J t) (KeepsOrder.refl J t)
      (h.roundRobin_of_not_contested hno) hτ t (Nat.le_refl t)
    rw [hmatch, Option.map_id_fun, id_eq]

/-- Jobs that fit one quantum contest no boundary. -/
theorem Fcfs.not_contested_of_short {quantum : ℕ} (h : J.Fcfs σ)
    (hshort : ∀ i ∈ J.jobs, J.length i ≤ quantum) : ¬ J.Contested quantum σ := by
  rintro ⟨i, s, k, j, hk, hstart, hunf, -⟩
  have hserved := served_of_runs_through h.keep hstart.1 (Nat.le_add_right s (quantum * k)) hunf
  have hle := hshort i (h.legal s i hstart.1).mem
  have hmul : quantum ≤ quantum * k := Nat.le_mul_of_pos_right quantum hk
  omega

/-! ## Shortest job next and first come first served -/

/-- A job is chosen by its length; the first of several. -/
theorem Sjn.length_least (h : J.Sjn σ) (hc : J.current σ t = none) (hi : σ t = some i)
    (hj : J.Eligible σ t j) : J.length i < J.length j ∨ J.length i = J.length j ∧ i ≤ j := by
  have hleast := h.least t i j hc hi hj
  rwa [left, left, served_eq_zero_of_choice h.keep hc (h.legal t i hi),
    served_eq_zero_of_choice h.keep hc hj, Nat.sub_zero, Nat.sub_zero] at hleast

/-- Among jobs of one length the shortest job next is the first one. -/
theorem Sjn.fcfs_of_same_length (h : J.Sjn σ)
    (hsame : ∀ i ∈ J.jobs, ∀ j ∈ J.jobs, J.length i = J.length j) : J.Fcfs σ where
  legal := h.legal
  busy := h.busy
  keep := h.keep
  first t i j hc hi hj := by
    have hlen := hsame i (h.legal t i hi).mem j hj.mem
    have := h.length_least hc hi hj
    rcases this with hlt | ⟨-, hle⟩
    · omega
    · exact hle

/-! ## Shortest job next and shortest remaining first -/

/-- A job arrives while another one is running that has more left than the
    newcomer has work. -/
def ShorterArrival (J : Jobs ι) (σ : Schedule ι) : Prop :=
  ∃ t i j, σ.prev t = some i ∧ j ∈ J.jobs ∧ J.release j = t ∧ J.length j < J.left σ t i

theorem Sjn.srpt_of_no_shorterArrival (h : J.Sjn σ)
    (hsorted : ∀ i ∈ J.jobs, ∀ j ∈ J.jobs, i ≤ j → J.release i ≤ J.release j)
    (hno : ¬ J.ShorterArrival σ) : J.Srpt σ where
  legal := h.legal
  busy := h.busy
  least t i j hi hj := by
    have hel := h.legal t i hi
    cases hc : J.current σ t with
    | none => exact h.least t i j hc hi hj
    | some r =>
        have hri : r = i := Option.some.inj ((h.keep t r hc).symm.trans hi)
        subst hri
        obtain ⟨hprev, hunf⟩ := current_eq_some.mp hc
        obtain ⟨hlt, hstart, hrun⟩ := Schedule.starts_lastStart hprev
        have hserved : ∀ u, σ.lastStart t ≤ u → u ≤ t →
            σ.served t r = σ.served u r + (t - u) := fun u hu hut =>
          served_of_runs_through h.keep (runs_through h.keep hstart.1 hu
            (lt_of_le_of_lt (Schedule.served_le_served r hut) hunf)) hut hunf
        have hother : ∀ u, σ.lastStart t ≤ u → u ≤ t → j ≠ r →
            σ.served t j = σ.served u j := fun u hu hut hjr =>
          Schedule.served_eq_of_not_run hut fun v hv hvt hrunj => by
            rw [hrun v (by omega) hvt, Option.some.injEq] at hrunj
            exact hjr hrunj.symm
        by_cases hjr : j = r
        · exact Or.inr ⟨by rw [hjr], by rw [hjr]⟩
        rcases Nat.lt_or_ge (σ.lastStart t) (J.release j) with hlate | hearly
        · -- `j` arrived while `r` was running, and was not shorter then
          have hcj := hj.released
          have hprevj : σ.prev (J.release j) = some r := by
            obtain ⟨d, hd⟩ := Nat.exists_eq_add_of_lt hlate
            rw [hd, Schedule.prev_succ]
            exact hrun _ (by omega) (by omega)
          have hge : J.left σ (J.release j) r ≤ J.length j := by
            by_contra hgt
            exact hno ⟨J.release j, r, j, hprevj, hj.mem, rfl, Nat.lt_of_not_le hgt⟩
          have h₁ := hserved (J.release j) hlate.le hcj
          have h₂ := hother (J.release j) hlate.le hcj hjr
          rw [h.legal.served_eq_zero (Nat.le_refl (J.release j))] at h₂
          have hrj : r ≤ j := by
            by_contra hgt
            have := hsorted j hj.mem r hel.mem (not_le.mp hgt).le
            have := (h.legal _ r hstart.1).released
            omega
          have hle : J.left σ t r ≤ J.left σ t j := by
            simp only [left] at hge ⊢
            omega
          rcases Nat.lt_or_eq_of_le hle with hlt' | heq
          · exact Or.inl hlt'
          · exact Or.inr ⟨heq, hrj⟩
        · -- `j` lost against `r` when `r` was put on the processor
          have hj₀ : J.Eligible σ (σ.lastStart t) j :=
            ⟨hj.mem, hearly, lt_of_le_of_lt (Schedule.served_le_served j hlt.le) hj.unfinished⟩
          have hleast := h.least _ r j (current_eq_none_of_starts h.keep hstart) hstart.1 hj₀
          have h₁ := hserved _ (Nat.le_refl _) hlt.le
          have h₂ := hother _ (Nat.le_refl _) hlt.le hjr
          apply Or.inl
          simp only [left] at hleast ⊢
          omega

theorem Sjn.no_shorterArrival_of_srpt (h : J.Sjn σ) (hS : J.Srpt σ)
    (hpos : ∀ i ∈ J.jobs, 0 < J.length i) : ¬ J.ShorterArrival σ := by
  rintro ⟨t, i, j, hprev, hj, hrel, hlt⟩
  have hunf : σ.served t i < J.length i := by
    rw [left] at hlt
    omega
  have hrun := h.keep t i (current_eq_some.mpr ⟨hprev, hunf⟩)
  have hzero : σ.served t j = 0 := h.legal.served_eq_zero hrel.ge
  have hleast := hS.least t i j hrun ⟨hj, hrel.le, by rw [hzero]; exact hpos j hj⟩
  simp only [left, hzero] at hleast hlt
  omega

/-- In release order, shortest job next and shortest remaining first agree
    exactly when no shorter job arrives while another one is running. -/
theorem Sjn.eq_srpt_iff {τ : Schedule ι} (h : J.Sjn σ) (hτ : J.Srpt τ)
    (hsorted : ∀ i ∈ J.jobs, ∀ j ∈ J.jobs, i ≤ j → J.release i ≤ J.release j)
    (hpos : ∀ i ∈ J.jobs, 0 < J.length i) : (∀ t, σ t = τ t) ↔ ¬ J.ShorterArrival σ := by
  constructor
  · intro heq
    obtain rfl : σ = τ := funext heq
    exact h.no_shorterArrival_of_srpt hτ hpos
  · intro hno t
    have hS := h.srpt_of_no_shorterArrival hsorted hno
    have hmatch := Srpt.matching hS hτ (Matches.refl J t)
      ((KeepsOrder.refl J t).ties hS) t (Nat.le_refl t)
    rw [hmatch, Option.map_id_fun, id_eq]

/-- Jobs released together see no arrival at all. -/
theorem Legal.no_shorterArrival (hL : J.Legal σ)
    (hsame : ∀ i ∈ J.jobs, ∀ j ∈ J.jobs, J.release i = J.release j) : ¬ J.ShorterArrival σ := by
  rintro ⟨t, i, j, hprev, hj, hrel, -⟩
  cases t with
  | zero => simp at hprev
  | succ t =>
      have hel := hL t i hprev
      have h₁ := hsame i hel.mem j hj
      have h₂ := hel.released
      omega

/-! ## Ties -/

/-- Two jobs never tie for the least work left. -/
def NoTie (J : Jobs ι) (σ : Schedule ι) : Prop := ∀ t i j, J.Eligible σ t i → J.Eligible σ t j →
  i ≠ j → J.left σ t i = J.left σ t j → ∃ l, J.Eligible σ t l ∧ J.left σ t l < J.left σ t i

section Ties

variable {κ : Type} [LinearOrder κ] {K : Jobs κ} {τ : Schedule κ} {f : ι → κ}

/-- Without ties corresponding jobs are run, however they are ordered. -/
theorem NoTie.matching {T : ℕ} (h : J.NoTie σ) (hσ : J.Srpt σ) (hτ : K.Srpt τ)
    (hM : J.Matches K f T) : ∀ t, t ≤ T → τ t = (σ t).map f := by
  apply Srpt.matching hσ hτ hM
  intro t i j _ hrun hj heq
  by_cases hij : i = j
  · rw [hij]
  · obtain ⟨l, hl, hlt⟩ := h t i j (hσ.legal t i hrun) hj hij heq
    have := hσ.least t i l hrun hl
    omega

/-- A tie, broken the other way round under other names, shows. -/
theorem Srpt.noTie (hσ : J.Srpt σ) (hswap : ∀ i ∈ J.jobs, ∀ j ∈ J.jobs, i < j →
    ∃ (K : Jobs κ) (τ : Schedule κ) (f : ι → κ), K.Srpt τ ∧ (∀ T, J.Matches K f T) ∧ f j < f i ∧
      ∀ t, τ t = (σ t).map f) : J.NoTie σ := by
  intro t i j hi hj hij heq
  by_contra hmin
  push Not at hmin
  obtain ⟨r, hrun⟩ := Option.ne_none_iff_exists'.mp (hσ.busy t i hi)
  have hr := hσ.legal t r hrun
  -- of the two tied jobs one is not the one run, and comes after it
  obtain ⟨x, hx, hne, hleft⟩ : ∃ x, J.Eligible σ t x ∧ x ≠ r ∧ J.left σ t r = J.left σ t x := by
    have h₁ := hσ.least t r i hrun hi
    have h₂ := hmin r hr
    by_cases hir : i = r
    · exact ⟨j, hj, fun hjr => hij (hir.trans hjr.symm), by rw [← hir]; exact heq⟩
    · exact ⟨i, hi, hir, by omega⟩
  have hlt : r < x := by
    rcases hσ.least t r x hrun hx with h | ⟨-, h⟩
    · omega
    · exact lt_of_le_of_ne h hne.symm
  obtain ⟨K, τ, f, hτ, hM, hf, hF⟩ := hswap r hr.mem x hx.mem hlt
  have hfollow : Follows f σ τ t := fun u _ => hF u
  have hrun' : τ t = some (f r) := by rw [hF t, hrun, Option.map_some]
  have h := hτ.least t (f r) (f x) hrun' ((hM t).eligible hσ.legal (Nat.le_refl t) hfollow hx)
  rw [(hM t).left_eq hσ.legal (Nat.le_refl t) hfollow hr,
    (hM t).left_eq hσ.legal (Nat.le_refl t) hfollow hx, hleft] at h
  rcases h with h | ⟨-, h⟩
  · exact absurd h (Nat.lt_irrefl _)
  · exact absurd hf (not_lt.mpr h)

end Ties

end Jobs
end ProcSched
