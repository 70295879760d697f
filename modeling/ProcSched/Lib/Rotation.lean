/-
  ProcSched.Lib.Rotation

  Fairness of a round robin that starts over at the first job after every
  finish.  Between two starts of a job `i` every other job that could be run all
  the time is started (`Fair`), unless a finish starts the rotation over while
  `i` has been served in it and a job behind the finished one has not
  (`CutShort`).  The two exclude each other and one of them holds
  (`RoundRobin.fair_iff`).
-/

import ProcSched.Lib.Policies

namespace ProcSched
namespace Jobs

variable {ι : Type} [LinearOrder ι] {J : Jobs ι} {σ : Schedule ι} {quantum a b c u v : ℕ}
  {i j k r y z : ι}

/-- No job is started twice while another one that could be run all the time is
    not started in between. -/
def Fair (J : Jobs ι) (σ : Schedule ι) : Prop :=
  ∀ i j a c, σ.Starts a i → a < c → σ.Starts c i → (∀ b, a < b → b < c → ¬ σ.Starts b i) →
    i ≠ j → (∀ b, a ≤ b → b ≤ c → J.Eligible σ b j) → ∃ b, a < b ∧ b < c ∧ σ.Starts b j

/-- At time `c` a job `k` finishes between an earlier job `i`, last started at
    `a`, and a later job `l`, released by then, both still to be done. -/
def CutShort (J : Jobs ι) (σ : Schedule ι) : Prop :=
  ∃ i k l a c, σ.Starts a i ∧ a < c ∧ (∀ b, a < b → b < c → ¬ σ.Starts b i) ∧
    σ.prev c = some k ∧ J.length k ≤ σ.served c k ∧ i < k ∧ k < l ∧
    J.Eligible σ c i ∧ J.Eligible σ c l ∧ J.release l ≤ a

/-! ## One unit -/

/-- What may follow job `r`: itself, the next job in cyclic order, or the first
    one if `r` is finished. -/
theorem RoundRobin.step_cases (h : J.RoundRobin quantum σ) (hr : σ u = some r)
    (hz : J.Eligible σ (u + 1) z) : ∃ y, σ (u + 1) = some y ∧
      (y = r ∨ J.NextAfter σ (u + 1) r y ∨
        (J.length r ≤ σ.served (u + 1) r ∧ ∀ x, J.Eligible σ (u + 1) x → y ≤ x)) := by
  obtain ⟨y, hy⟩ := Option.ne_none_iff_exists'.mp (h.busy _ z hz)
  refine ⟨y, hy, ?_⟩
  cases hc : J.current σ (u + 1) with
  | none =>
      exact Or.inr (Or.inr ⟨current_eq_none.mp hc r hr, fun x hx => h.first _ y x hc hy hx⟩)
  | some r' =>
      obtain rfl : r = r' := Option.some.inj (hr.symm.trans (current_eq_some.mp hc).1)
      by_cases hq : (u + 1 - σ.lastStart (u + 1)) % quantum = 0
      · exact Or.inr (Or.inl (h.rotate _ r y hc hq hy))
      · have hsame := h.keep _ r hc hq
        rw [hy, Option.some.injEq] at hsame
        exact Or.inl hsame

/-- Below an eligible job the rotation does not pass it by. -/
theorem RoundRobin.stays_below (h : J.RoundRobin quantum σ) (huv : u ≤ v) (hr : σ u = some r)
    (hrz : r < z) (hz : ∀ b, u < b → b ≤ v → J.Eligible σ b z)
    (hno : ∀ b, u < b → b ≤ v → ¬ σ.Starts b z) : ∃ y, σ v = some y ∧ y < z := by
  induction v, huv using Nat.le_induction with
  | base => exact ⟨r, hr, hrz⟩
  | succ v huv ih =>
      obtain ⟨x, hx, hxz⟩ := ih (fun b hb hbv => hz b hb (by omega))
        fun b hb hbv => hno b hb (by omega)
      have hel := hz (v + 1) (by omega) (Nat.le_refl _)
      obtain ⟨y, hy, hcase⟩ := h.step_cases hx hel
      have hle : y ≤ z := by
        rcases hcase with rfl | (⟨-, hnext⟩ | ⟨hyx, -⟩) | ⟨-, hfirst⟩
        · exact hxz.le
        · exact hnext z hel hxz
        · exact hyx.trans hxz.le
        · exact hfirst z hel
      refine ⟨y, hy, lt_of_le_of_ne hle fun hyz => ?_⟩
      subst hyz
      refine hno (v + 1) (by omega) (Nat.le_refl _) ⟨hy, ?_⟩
      rw [Schedule.prev_succ, hx]
      exact fun he => hxz.ne (Option.some.inj he)

/-! ## Ascending stretches -/

/-- From `a` to `c` the job run never steps down. -/
def Ascends (σ : Schedule ι) (a c : ℕ) : Prop :=
  ∀ b, a ≤ b → b < c → ∃ r y, σ b = some r ∧ σ (b + 1) = some y ∧ r ≤ y

theorem Ascends.le (h : Ascends σ a c) (hac : a ≤ c) (hi : σ a = some i) (hj : σ c = some j) :
    i ≤ j := by
  induction c, hac using Nat.le_induction generalizing j with
  | base => exact (Option.some.inj (hi.symm.trans hj)).le
  | succ c hac ih =>
      obtain ⟨r, y, hr, hy, hle⟩ := h c hac (Nat.lt_succ_self c)
      rw [Option.some.inj (hj.symm.trans hy)]
      exact (ih (fun b hb hbc => h b hb (by omega)) hr).trans hle

/-- A job that is run at both ends of an ascending stretch is run throughout. -/
theorem Ascends.not_starts (h : Ascends σ a c) (hac : a < c) (hi : σ a = some i) :
    ¬ σ.Starts c i := by
  rintro ⟨hc, hprev⟩
  obtain ⟨d, rfl⟩ : ∃ d, c = d + 1 := ⟨c - 1, by omega⟩
  obtain ⟨r, y, hr, hy, hle⟩ := h d (by omega) (Nat.lt_succ_self d)
  obtain rfl : i = y := Option.some.inj (hc.symm.trans hy)
  have hir := Ascends.le (fun b hb hbd => h b hb (by omega)) (by omega) hi hr
  rw [Schedule.prev_succ, hr, le_antisymm hle hir] at hprev
  exact hprev rfl

section RoundRobin

variable (h : J.RoundRobin quantum σ)
include h

/-- Until its next start, a rotation that is not cut short ascends from `i`
    below any job `j` that could be run but is not started. -/
theorem RoundRobin.ascends_of_not_started (hcut : ¬ J.CutShort σ) (ha : σ.Starts a i)
    (hc : σ.Starts c i) (hbetween : ∀ b, a < b → b < c → ¬ σ.Starts b i) (hij : i < j)
    (hj : ∀ b, a ≤ b → b ≤ c → J.Eligible σ b j)
    (hno : ∀ b, a < b → b < c → ¬ σ.Starts b j) (hav : a ≤ v) (hvc : v ≤ c) :
    Ascends σ a v ∧ ∃ r, σ v = some r ∧ i ≤ r ∧ r < j := by
  have hel : ∀ b, a ≤ b → b ≤ c → J.Eligible σ b i := fun b hab hbc =>
    (h.legal a i ha.1).between (h.legal c i hc.1) hab hbc
  have hnoc : ∀ b, a < b → b ≤ c → ¬ σ.Starts b j := fun b hab hbc hs => by
    rcases Nat.lt_or_eq_of_le hbc with hlt | rfl
    · exact hno b hab hlt hs
    · exact hij.ne (Option.some.inj (hc.1.symm.trans hs.1))
  induction v, hav using Nat.le_induction with
  | base => exact ⟨fun b hb hba => by omega, i, ha.1, le_refl i, hij⟩
  | succ v hav ih =>
      obtain ⟨hasc, r, hr, hir, hrj⟩ := ih (by omega)
      have hjel := hj (v + 1) (by omega) hvc
      obtain ⟨y, hy, hyj⟩ := h.stays_below (Nat.le_succ v) hr hrj
        (fun b hb hbv => hj b (by omega) (by omega)) fun b hb hbv => hnoc b (by omega) (by omega)
      obtain ⟨y', hy', hcase⟩ := h.step_cases hr hjel
      obtain rfl : y = y' := Option.some.inj (hy.symm.trans hy')
      have hle : r ≤ y := by
        rcases hcase with rfl | (⟨hry, -⟩ | ⟨-, hwrap⟩) | ⟨hend, -⟩
        · exact le_refl y
        · exact hry.le
        · exact absurd hrj (not_lt.mpr (hwrap j hjel).1)
        · -- `r` has finished between `i` and `j`
          have hri : i < r := lt_of_le_of_ne hir fun he => by
            have := (hel (v + 1) (by omega) hvc).unfinished
            rw [he] at this
            omega
          exact absurd ⟨i, r, j, a, v + 1, ha, by omega, fun b hab hbv => hbetween b hab (by omega),
            hr, hend, hri, hrj, hel (v + 1) (by omega) hvc, hjel, (hj a (Nat.le_refl a)
              (by omega)).released⟩ hcut
      refine ⟨fun b hab hbv => ?_, y, hy, hir.trans hle, hyj⟩
      rcases Nat.lt_succ_iff_lt_or_eq.mp hbv with hlt | rfl
      · exact hasc b hab hlt
      · exact ⟨r, y, hr, hy, hle⟩

/-- Above a job `z` that could be run but is not started there is only up, as
    long as the rotation is to end above `z`. -/
theorem RoundRobin.ascends_above (ha : σ a = some i) (hzi : z ≤ i) (hc : σ c = some k)
    (hzk : z < k) (hz : ∀ b, a ≤ b → b ≤ c → J.Eligible σ b z)
    (hno : ∀ b, a < b → b ≤ c → ¬ σ.Starts b z) (hav : a ≤ v) (hvc : v ≤ c) :
    Ascends σ a v ∧ ∃ r, σ v = some r ∧ z ≤ r := by
  induction v, hav using Nat.le_induction with
  | base => exact ⟨fun b hb hba => by omega, i, ha, hzi⟩
  | succ v hav ih =>
      obtain ⟨hasc, r, hr, hzr⟩ := ih (by omega)
      have hel := hz (v + 1) (by omega) hvc
      obtain ⟨y, hy, hcase⟩ := h.step_cases hr hel
      -- below `z` the rotation would stay below `z`
      have hzy : z ≤ y := by
        by_contra hlt
        obtain ⟨x, hx, hxz⟩ := h.stays_below hvc hy (not_le.mp hlt)
          (fun b hb hbc => hz b (by omega) hbc) fun b hb hbc => hno b (by omega) hbc
        rw [Option.some.inj (hc.symm.trans hx)] at hzk
        exact lt_asymm hzk hxz
      -- and `z` itself is only kept, not started
      have hkept : y = z → r = z := fun hyz => by
        by_contra hrz
        refine hno (v + 1) (by omega) hvc ⟨hyz ▸ hy, ?_⟩
        rw [Schedule.prev_succ, hr]
        exact fun he => hrz (Option.some.inj he)
      have hle : r ≤ y := by
        rcases hcase with rfl | (⟨hry, -⟩ | ⟨-, hwrap⟩) | ⟨-, hfirst⟩
        · exact le_refl y
        · exact hry.le
        · rw [hkept (le_antisymm (hwrap z hel).2 hzy)]
          exact hzy
        · rw [hkept (le_antisymm (hfirst z hel) hzy)]
          exact hzy
      refine ⟨fun b hab hbv => ?_, y, hy, hzr.trans hle⟩
      rcases Nat.lt_succ_iff_lt_or_eq.mp hbv with hlt | rfl
      · exact hasc b hab hlt
      · exact ⟨r, y, hr, hy, hle⟩

/-- A rotation that is never cut short is fair. -/
theorem RoundRobin.fair_of_not_cutShort (hcut : ¬ J.CutShort σ) : J.Fair σ := by
  intro i j a c ha hac hc hbetween hij hj
  by_contra hno
  push Not at hno
  rcases lt_or_gt_of_ne hij with hlt | hgt
  · obtain ⟨hasc, -⟩ := h.ascends_of_not_started hcut ha hc hbetween hlt hj hno hac.le
      (Nat.le_refl c)
    exact hasc.not_starts hac ha.1 hc
  · have hnoc : ∀ b, a < b → b ≤ c → ¬ σ.Starts b j := fun b hab hbc hs => by
      rcases Nat.lt_or_eq_of_le hbc with hlt | rfl
      · exact hno b hab hlt hs
      · exact hij (Option.some.inj (hc.1.symm.trans hs.1))
    obtain ⟨hasc, -⟩ := h.ascends_above ha.1 hgt.le hc.1 hgt hj hnoc hac.le (Nat.le_refl c)
    exact hasc.not_starts hac ha.1 hc

/-- A rotation that is cut short is not fair: it comes back to `i` before it has
    reached the later job. -/
theorem RoundRobin.not_fair_of_cutShort (hdone : ∀ i ∈ J.jobs, ∃ t, J.length i ≤ σ.served t i)
    (hcut : J.CutShort σ) : ¬ J.Fair σ := by
  obtain ⟨i, k, l, a, c, ha, hac, hbetween, hprev, hend, hik, hkl, hi, hl, hrel⟩ := hcut
  obtain ⟨d, rfl⟩ : ∃ d, c = d + 1 := ⟨c - 1, by omega⟩
  rw [Schedule.prev_succ] at hprev
  have hiel : ∀ b, a ≤ b → b ≤ d + 1 → J.Eligible σ b i := fun b hab hbd =>
    (h.legal a i ha.1).between hi hab hbd
  -- up to the finish the rotation has gone from `i` up to `k`
  have hup : ∀ b, a ≤ b → b ≤ d → σ b ≠ some l := fun b hab hbd he => by
    obtain ⟨hasc, -⟩ := h.ascends_above ha.1 (le_refl i) hprev hik
      (fun b hb hbd => hiel b hb (by omega)) (fun b hb hbd => hbetween b hb (by omega))
      (show a ≤ d by omega) (Nat.le_refl d)
    have hle := Ascends.le (fun b' hb hbd => hasc b' (by omega) hbd) hbd he hprev
    exact absurd hkl (not_lt.mpr hle)
  -- afterwards it stays below `i` until `i` is started again
  have hagain : ∃ t, d + 1 ≤ t ∧ σ t = some i := by
    by_contra hno
    push Not at hno
    obtain ⟨t, ht⟩ := hdone i hi.mem
    have hstop := Schedule.served_eq_of_not_run (Nat.le_max_right t (d + 1))
      fun u hu _ => hno u hu
    have hmono := Schedule.served_le_served (σ := σ) i (Nat.le_max_left t (d + 1))
    have := hi.unfinished
    omega
  obtain ⟨hdt, ht⟩ := Nat.find_spec hagain
  have hmin : ∀ b, d + 1 ≤ b → b < Nat.find hagain → σ b ≠ some i := fun b hb hbt he =>
    Nat.find_min hagain hbt ⟨hb, he⟩
  generalize Nat.find hagain = t at hdt ht hmin
  obtain ⟨y, hy⟩ := Option.ne_none_iff_exists'.mp (h.busy _ i hi)
  have hyi : y ≤ i := by
    refine h.first _ y i (current_eq_none.mpr fun r hr => ?_) hy hi
    rw [Schedule.prev_succ, hprev, Option.some.injEq] at hr
    rw [← hr]
    exact hend
  have hbelow : ∀ b, d + 1 ≤ b → b < t → ∃ x, σ b = some x ∧ x < i := fun b hb hbt =>
    h.stays_below hb hy (lt_of_le_of_ne hyi fun he => hmin _ (Nat.le_refl _) (by omega) (he ▸ hy))
      (fun u hu hub => hi.between (h.legal t i ht) (by omega) (by omega))
      fun u hu hub hs => hmin u (by omega) (by omega) hs.1
  have hstart : σ.Starts t i := by
    refine ⟨ht, fun he => ?_⟩
    obtain ⟨u, rfl⟩ : ∃ u, t = u + 1 := ⟨t - 1, by omega⟩
    rw [Schedule.prev_succ] at he
    rcases Nat.lt_or_eq_of_le hdt with hlt | heq
    · exact hmin u (by omega) (Nat.lt_succ_self u) he
    · obtain rfl : d = u := by omega
      exact hik.ne (Option.some.inj (he.symm.trans hprev))
  have hnot : ∀ b, d + 1 ≤ b → b < t → σ b ≠ some l := fun b hb hbt he => by
    obtain ⟨x, hx, hxi⟩ := hbelow b hb hbt
    rw [Option.some.inj (hx.symm.trans he)] at hxi
    exact lt_asymm (hik.trans hkl) hxi
  intro hfair
  obtain ⟨b, hab, hbt, hs⟩ := hfair i l a t ha (by omega) hstart
    (fun b hab hbt hs => by
      rcases Nat.lt_or_ge b (d + 1) with hlt | hge
      · exact hbetween b hab hlt hs
      · exact hmin b hge hbt hs.1)
    (hik.trans hkl).ne
    fun b hab hbt => ⟨hl.mem, by omega, by
      rcases Nat.le_total b (d + 1) with hle | hge
      · exact lt_of_le_of_lt (Schedule.served_le_served l hle) hl.unfinished
      · rw [Schedule.served_eq_of_not_run hge fun u hu hub => hnot u hu (by omega)]
        exact hl.unfinished⟩
  rcases Nat.lt_or_ge b (d + 1) with hlt | hge
  · exact hup b hab.le (by omega) hs.1
  · exact hnot b hge hbt hs.1

/-- A rotation in which all jobs finish is fair exactly if it is never cut short. -/
theorem RoundRobin.fair_iff (hdone : ∀ i ∈ J.jobs, ∃ t, J.length i ≤ σ.served t i) :
    J.Fair σ ↔ ¬ J.CutShort σ :=
  ⟨fun hfair hcut => h.not_fair_of_cutShort hdone hcut hfair, h.fair_of_not_cutShort⟩

/-- A started job keeps the processor for a quantum, unless it finishes. -/
theorem RoundRobin.keeps_quantum (hs : σ.Starts a i) (hau : a ≤ u) (hua : u < a + quantum)
    (hunf : σ.served u i < J.length i) : ∀ b, a ≤ b → b ≤ u → σ b = some i := by
  induction u, hau using Nat.le_induction with
  | base =>
      intro b hab hba
      rw [Nat.le_antisymm hba hab]
      exact hs.1
  | succ u hau ih =>
      have hlt := lt_of_le_of_lt (Schedule.served_le_succ σ u i) hunf
      have hbefore := ih (by omega) hlt
      intro b hab hbu
      rcases Nat.lt_succ_iff_lt_or_eq.mp (Nat.lt_succ_of_le hbu) with hb | rfl
      · exact hbefore b hab (by omega)
      · have hlast := Schedule.lastStart_of_run hs (Nat.lt_succ_of_le hau)
          fun v hav hvu => hbefore v hav (by omega)
        apply h.keep _ i (current_succ (hbefore u hau (Nat.le_refl u)) hunf)
        rw [hlast, Nat.mod_eq_of_lt (by omega)]
        omega

/-- An unfinished job leaves the processor after a whole number of quanta, to
    the next job in cyclic order. -/
theorem RoundRobin.replaced (hr : J.current σ u = some r) (hy : σ u = some y) (hyr : y ≠ r) :
    (∃ m, 1 ≤ m ∧ u = σ.lastStart u + quantum * m) ∧ J.NextAfter σ u r y := by
  have hq : (u - σ.lastStart u) % quantum = 0 := by
    by_contra hne
    have hkeep := h.keep u r hr hne
    rw [hy, Option.some.injEq] at hkeep
    exact hyr hkeep
  refine ⟨?_, h.rotate u r y hr hq hy⟩
  obtain ⟨hlt, -, -⟩ := Schedule.starts_lastStart (current_eq_some.mp hr).1
  obtain ⟨m, hm⟩ := Nat.dvd_of_mod_eq_zero hq
  refine ⟨m, ?_, by omega⟩
  rcases Nat.eq_zero_or_pos m with rfl | hpos
  · omega
  · exact hpos

/-- No job runs for more than a quantum without a break while another one could
    run all the time. -/
theorem RoundRobin.not_stretch (hq : 0 < quantum)
    (hrun : ∀ v, u ≤ v → v ≤ u + quantum → σ v = some i ∧ ∃ j, j ≠ i ∧ J.Eligible σ v j) :
    False := by
  have hprev : σ.prev (u + 1) = some i := (hrun u (Nat.le_refl u) (by omega)).1
  obtain ⟨hlt, hstart, hbefore⟩ := Schedule.starts_lastStart hprev
  set a := σ.lastStart (u + 1)
  have hall : ∀ v, a ≤ v → v ≤ u + quantum → σ v = some i := fun v hav hvu => by
    rcases Nat.lt_or_ge v (u + 1) with hv | hv
    · exact hbefore v hav hv
    · exact (hrun v (by omega) hvu).1
  -- the only boundary of the quanta of `i` in `(u, u + quantum]`
  have hmod := Nat.mod_lt (u - a) hq
  have hdiv := Nat.div_add_mod (u - a) quantum
  obtain ⟨t, ht⟩ : ∃ t, t + (u - a) % quantum = u + quantum :=
    ⟨u + quantum - (u - a) % quantum, by omega⟩
  have hboundary : (t - a) % quantum = 0 := by
    rw [show t - a = quantum * ((u - a) / quantum + 1) by rw [Nat.mul_add, Nat.mul_one]; omega]
    exact Nat.mul_mod_right _ _
  have hrunt := hall t (by omega) (by omega)
  have hlast : σ.lastStart t = a :=
    Schedule.lastStart_of_run hstart (by omega) fun v hav hvt => hall v hav (by omega)
  have hcur : J.current σ t = some i := by
    refine current_eq_some.mpr ⟨?_, (h.legal t i hrunt).unfinished⟩
    obtain ⟨d, rfl⟩ : ∃ d, t = d + 1 := ⟨t - 1, by omega⟩
    exact hall d (by omega) (by omega)
  obtain ⟨-, j, hji, hj⟩ := hrun t (by omega) (by omega)
  rcases h.rotate t i i hcur (by rw [hlast]; exact hboundary) hrunt with ⟨hii, -⟩ | ⟨-, hleast⟩
  · exact lt_irrefl i hii
  · exact hji (le_antisymm (hleast j hj).1 (hleast j hj).2)

end RoundRobin

end Jobs
end ProcSched
