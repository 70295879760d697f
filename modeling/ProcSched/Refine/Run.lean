/-
  ProcSched.Refine.Run

  From one iteration to whole runs.  A loop whose iterations keep an invariant
  and run eligible processes while there is work reaches the end of the work,
  and leaves the loop there (`completes_of_step`).  The end of the work does not
  depend on the policy: it is the makespan of the workload in ready order
  (`finished_iff_makespan`).
-/

import ProcSched.Refine.Trace

namespace ProcSched

/-! ## The end of the work -/

section Makespan

theorem sum_range_entry {M : Type} [AddCommMonoid M] (f : Process → M) (W : List Process) :
    ∑ i ∈ Finset.range W.length, f (entry W i) = (W.map f).sum := by
  induction W with
  | nil => rfl
  | cons p W ih =>
      rw [List.length_cons, Finset.sum_range_succ', List.map_cons, List.sum_cons, add_comm,
        entry_cons_zero]
      simp only [entry_cons_succ, ih]

theorem WellFormed.total_eq {W : List Process} (hW : WellFormed W) :
    ((jobsOf W).total : Int) = (W.map Process.exec).sum := by
  rw [Jobs.total, Nat.cast_sum, ← sum_range_entry]
  exact Finset.sum_congr rfl fun i hi => hW.length_eq (mem_jobsOf.mp hi)

theorem jobsOf_total (W : List Process) : (jobsOf W).total = Jobs.totalOf (pairsOf W) := by
  rw [Jobs.total, Jobs.totalOf, pairsOf, List.map_map]
  exact sum_range_entry (fun p => p.exec.toNat) W

theorem jobsOf_arrived (W : List Process) (t : ℕ) :
    (jobsOf W).arrived t = Jobs.arrivedOf (pairsOf W) t := by
  rw [Jobs.arrived, Finset.sum_filter, Jobs.arrivedOf, pairsOf, List.map_map]
  exact sum_range_entry (fun p => if p.ready.toNat ≤ t then p.exec.toNat else 0) W

theorem pairsOf_perm {V W : List Process} (h : V.Perm W) : (pairsOf V).Perm (pairsOf W) :=
  h.map _

theorem pairsOf_sorted {V : List Process} (h : V.Pairwise fun a b => a.ready ≤ b.ready) :
    (pairsOf V).Pairwise fun x y => x.1 ≤ y.1 := by
  rw [pairsOf, List.pairwise_map]
  exact h.imp fun hab => Int.toNat_le_toNat hab

theorem pairsOf_pos {V : List Process} (hV : WellFormed V) : ∀ x ∈ pairsOf V, 0 < x.2 := by
  intro x hx
  obtain ⟨p, hp, rfl⟩ := List.mem_map.mp hx
  have := hV.exec_pos p hp
  simp only
  omega

theorem drain_eq_total_iff {W V : List Process} (hW : WellFormed W) (hV : V.Perm W)
    (hs : V.Pairwise fun a b => a.ready ≤ b.ready) (t : ℕ) :
    Jobs.drain (jobsOf W).arrived t = (jobsOf W).total ↔ Jobs.finishTime (pairsOf V) ≤ t := by
  have harr : (jobsOf W).arrived = Jobs.arrivedOf (pairsOf V) := by
    funext u
    rw [jobsOf_arrived, Jobs.arrivedOf_perm (pairsOf_perm hV)]
  rw [jobsOf_total, harr, ← Jobs.totalOf_perm (pairsOf_perm hV)]
  exact Jobs.drain_eq_totalOf_iff (pairsOf_sorted hs) (pairsOf_pos (hW.perm hV)) t

/-- Every ready order gives the same makespan. -/
theorem finishTime_eq_makespan {W V : List Process} (hW : WellFormed W) (hV : V.Perm W)
    (hs : V.Pairwise fun a b => a.ready ≤ b.ready) : Jobs.finishTime (pairsOf V) = makespan W := by
  have h₁ := drain_eq_total_iff hW hV hs
  have h₂ := drain_eq_total_iff hW (readyOrder_perm W) (readyOrder_sorted W)
  exact Nat.le_antisymm ((h₁ _).mp ((h₂ _).mpr (Nat.le_refl _)))
    ((h₂ _).mp ((h₁ _).mpr (Nat.le_refl _)))

/-- Whatever the policy, a busy legal schedule is finished from the makespan on. -/
theorem finished_iff_makespan {W : List Process} {σ : Schedule ℕ} (hW : WellFormed W)
    (hL : (jobsOf W).Legal σ) (hB : (jobsOf W).Busy σ) (t : ℕ) :
    (jobsOf W).Finished σ t ↔ makespan W ≤ t := by
  rw [hL.finished_iff, Jobs.progress_eq_drain hL hB]
  exact drain_eq_total_iff hW (readyOrder_perm W) (readyOrder_sorted W) t

theorem makespan_perm {W V : List Process} (hW : WellFormed W) (hV : V.Perm W) :
    makespan V = makespan W :=
  finishTime_eq_makespan hW ((readyOrder_perm V).trans hV) (readyOrder_sorted V)

/-- The makespan is within a bound of the ready times with all the work behind them. -/
theorem makespan_le {W : List Process} (hW : WellFormed W) {m : Int}
    (hm : ∀ p ∈ W, p.ready + (W.map Process.exec).sum ≤ m) : (makespan W : Int) ≤ m := by
  have htotal : (Jobs.totalOf (pairsOf (readyOrder W)) : Int) = (W.map Process.exec).sum := by
    rw [Jobs.totalOf_perm (pairsOf_perm (readyOrder_perm W)), ← jobsOf_total, hW.total_eq]
  have hfirst := hm _ (entry_mem hW.length_pos)
  have hnonneg := hW.ready_nonneg _ (entry_mem hW.length_pos)
  have hle := Jobs.finishTime_le (l := pairsOf (readyOrder W))
    (m := (m - (W.map Process.exec).sum).toNat) fun x hx => by
      obtain ⟨p, hp, rfl⟩ := List.mem_map.mp hx
      have := hm p ((readyOrder_perm W).mem_iff.mp hp)
      simp only
      omega
  rw [makespan]
  omega

end Makespan

/-! ## Whole runs -/

/-- The schedule does the work of `W` busily and legally, as the law says, and
    is done with it at time `T` and not before. -/
structure Completes (W : List Process) (law : ChoiceLaw) (σ : Schedule ℕ) (T : ℕ) : Prop where
  legal : (jobsOf W).Legal σ
  busy : (jobsOf W).Busy σ
  law : ∀ t i, (jobsOf W).Eligible σ t i → law σ t (σ t)
  finished : (jobsOf W).Finished σ T
  unfinished : ∀ t < T, ¬ (jobsOf W).Finished σ t

/-- Nothing is eligible once all is finished. -/
theorem not_eligible_of_finished {W : List Process} {σ : Schedule ℕ} {T t : ℕ}
    (h : (jobsOf W).Finished σ T) (ht : T ≤ t) (i : ℕ) : ¬ (jobsOf W).Eligible σ t i := by
  intro hi
  have h₁ := h i hi.mem
  have h₂ := Schedule.served_le_served (σ := σ) i ht
  have h₃ := hi.unfinished
  omega

theorem Completes.eq_makespan {W : List Process} {law : ChoiceLaw} {σ : Schedule ℕ} {T : ℕ}
    (h : Completes W law σ T) (hW : WellFormed W) : T = makespan W := by
  have hiff := finished_iff_makespan hW h.legal h.busy
  refine Nat.le_antisymm ?_ ((hiff T).mp h.finished)
  by_contra hlt
  exact h.unfinished _ (Nat.lt_of_not_le hlt) ((hiff _).mpr (Nat.le_refl _))

/-- A schedule that is finished at `T` and idle from then on completes. -/
theorem Before.completes {W : List Process} {law : ChoiceLaw} {σ : Schedule ℕ} {T : ℕ}
    (h : Before W law σ T) (hfin : (jobsOf W).Finished σ T) (hidle : ∀ t, T ≤ t → σ t = none) :
    Completes W law σ T where
  legal t i hrun := by
    rcases Nat.lt_or_ge t T with ht | ht
    · exact h.legal t ht i hrun
    · rw [hidle t ht] at hrun
      exact absurd hrun (Option.some_ne_none i).symm
  busy t i hi := by
    rcases Nat.lt_or_ge t T with ht | ht
    · exact h.busy t ht i hi
    · exact absurd hi (not_eligible_of_finished hfin ht i)
  law t i hi := by
    rcases Nat.lt_or_ge t T with ht | ht
    · exact h.law t ht
    · exact absurd hi (not_eligible_of_finished hfin ht i)
  finished := hfin
  unfinished := h.unfinished

section Runs

variable {τ : Type} {step : τ → Outcome τ} {o : Outcome τ} {W : List Process} {law : ChoiceLaw}
  {σ : Schedule ℕ} {Inv Fin : ℕ → τ → Prop}

/-- A loop whose iterations keep `Inv` and go on, or leave the loop with `Fin`
    when all the work is done, completes the work and is left. -/
theorem completes_of_step (hW : WellFormed W) (hinit : ∃ s, o = .next s ∧ Inv 0 s)
    (hstep : ∀ k s, Outcome.run step o k = .next s → Inv k s → Before W law σ k →
      (¬ (jobsOf W).Finished σ k ∧ ∃ s', step s = .next s' ∧ Inv (k + 1) s' ∧
          Before W law σ (k + 1)) ∨
        ((jobsOf W).Finished σ k ∧ ∃ s', step s = .done s' ∧ Fin k s'))
    (hidle : ∀ k s, Outcome.run step o (k + 1) = .done s → σ k = none) :
    ∃ T, Completes W law σ T ∧
      (∀ k ≤ T, ∃ s, Outcome.run step o k = .next s ∧ Inv k s ∧ Before W law σ k) ∧
      ∃ s, Outcome.run step o (T + 1) = .done s ∧ Fin T s := by
  -- the iterations reached by going on satisfy the invariant
  have hreach : ∀ k, (∀ j < k, ∃ s, Outcome.run step o (j + 1) = .next s) →
      ∃ s, Outcome.run step o k = .next s ∧ Inv k s ∧ Before W law σ k := by
    intro k
    induction k with
    | zero =>
        intro _
        obtain ⟨s, hs, hI⟩ := hinit
        exact ⟨s, hs, hI, Before.zero W law σ⟩
    | succ k ih =>
        intro hgo
        obtain ⟨s, hs, hI, hB⟩ := ih fun j hj => hgo j (by omega)
        obtain ⟨s', hs'⟩ := hgo k (Nat.lt_succ_self k)
        have hone := Outcome.run_succ_of_next hs
        rcases hstep k s hs hI hB with ⟨-, s₁, h₁, hI', hB'⟩ | ⟨-, s₁, h₁, -⟩
        · exact ⟨s₁, hone.trans h₁, hI', hB'⟩
        · rw [hone, h₁] at hs'
          cases hs'
  -- some iteration does not go on: a busy run would be finished at the makespan
  have hstop : ∃ k, ¬ ∃ s, Outcome.run step o (k + 1) = .next s := by
    by_contra hno
    push Not at hno
    have hall : ∀ k, Before W law σ k := fun k => by
      obtain ⟨-, -, -, hB⟩ := hreach k fun j _ => hno j
      exact hB
    have hL : (jobsOf W).Legal σ := fun t => (hall (t + 1)).legal t (Nat.lt_succ_self t)
    have hB : (jobsOf W).Busy σ := fun t => (hall (t + 1)).busy t (Nat.lt_succ_self t)
    have hfin := (finished_iff_makespan hW hL hB (makespan W)).mpr (Nat.le_refl _)
    exact (hall (makespan W + 1)).unfinished _ (Nat.lt_succ_self _) hfin
  classical
  have hfirst := Nat.find_spec hstop
  have hbefore : ∀ j < Nat.find hstop, ∃ s, Outcome.run step o (j + 1) = .next s :=
    fun j hj => not_not.mp (Nat.find_min hstop hj)
  generalize Nat.find hstop = T at hfirst hbefore
  obtain ⟨s, hs, hI, hB⟩ := hreach T hbefore
  have hone := Outcome.run_succ_of_next hs
  rcases hstep T s hs hI hB with ⟨-, s₁, h₁, -⟩ | ⟨hfin, s₁, h₁, hF⟩
  · exact absurd ⟨s₁, hone.trans h₁⟩ hfirst
  · have hdone := hone.trans h₁
    refine ⟨T, hB.completes hfin fun t ht => ?_, fun k hk => ?_, s₁, hdone, hF⟩
    · exact hidle t s₁ (Outcome.run_done_of_le hdone (by omega))
    · exact hreach k fun j hj => hbefore j (by omega)

end Runs

/-! ## Descriptions of runs -/

/-- A run that follows `σ` on the table `W` and is left after `T` units. -/
structure Describes (run : ℕ → Outcome Snapshot) (W : List Process) (law : ChoiceLaw)
    (σ : Schedule ℕ) (delay T : ℕ) : Prop extends Completes W law σ T where
  next : ∀ k ≤ T, ∃ s, run k = .next s ∧ Shows W σ delay k s
  done : ∀ k, T < k → ∃ s, run k = .done s ∧ Closes W σ delay T s

theorem Completes.served_eq {W : List Process} {law : ChoiceLaw} {σ : Schedule ℕ} {T t : ℕ}
    (h : Completes W law σ T) (ht : T ≤ t) (i : ℕ) : σ.served t i = σ.served T i :=
  Schedule.served_eq_of_not_run ht fun _ hu _ hrun =>
    not_eligible_of_finished h.finished hu i (h.legal _ _ hrun)

theorem Completes.idle {W : List Process} {law : ChoiceLaw} {σ : Schedule ℕ} {T t : ℕ}
    (h : Completes W law σ T) (ht : T ≤ t) : σ t = none := by
  cases hrun : σ t with
  | none => rfl
  | some i => exact absurd (h.legal t i hrun) (not_eligible_of_finished h.finished ht i)

theorem Completes.lt_of_run {W : List Process} {law : ChoiceLaw} {σ : Schedule ℕ} {T t i : ℕ}
    (h : Completes W law σ T) (hrun : σ t = some i) : t < T := by
  by_contra hge
  rw [h.idle (Nat.le_of_not_lt hge)] at hrun
  exact absurd hrun (Option.some_ne_none i).symm

/-- `Log.decremented` finds the decrement mark of a time at which there is at
    most one. -/
theorem decremented_eq {log : Log} {t : ℕ} {o : Option ℕ}
    (h : ∀ i, (t, Mark.decrement i) ∈ log.marks ↔ o = some i) : log.decremented t = o := by
  cases hd : log.decremented t with
  | some i =>
      obtain ⟨⟨c, m⟩, hm, hpick⟩ := List.exists_of_findSome?_eq_some hd
      cases m with
      | decrement j =>
          simp only [Option.ite_none_right_eq_some, Option.some.injEq] at hpick
          obtain ⟨rfl, rfl⟩ := hpick
          exact ((h j).mp hm).symm
      | _ => simp at hpick
  | none =>
      cases ho : o with
      | none => rfl
      | some i =>
          have := List.findSome?_eq_none_iff.mp hd _ ((h i).mpr ho)
          simp at this

namespace Describes

variable {run : ℕ → Outcome Snapshot} {W : List Process} {law : ChoiceLaw} {σ : Schedule ℕ}
  {delay T : ℕ}

variable (h : Describes run W law σ delay T)
include h

theorem le_of_next {k : ℕ} {s : Snapshot} (hs : run k = .next s) : k ≤ T := by
  by_contra hlt
  obtain ⟨s', hs', -⟩ := h.done k (by omega)
  rw [hs] at hs'
  cases hs'

theorem shows {k : ℕ} {s : Snapshot} (hs : run k = .next s) : Shows W σ delay k s := by
  obtain ⟨s', hs', hshow⟩ := h.next k (h.le_of_next hs)
  rw [hs] at hs'
  cases hs'
  exact hshow

theorem lt_of_done {k : ℕ} {s : Snapshot} (hs : run k = .done s) : T < k := by
  by_contra hle
  obtain ⟨s', hs', -⟩ := h.next k (by omega)
  rw [hs] at hs'
  cases hs'

theorem closes {k : ℕ} {s : Snapshot} (hs : run k = .done s) : Closes W σ delay T s := by
  obtain ⟨s', hs', hclose⟩ := h.done k (h.lt_of_done hs)
  rw [hs] at hs'
  cases hs'
  exact hclose

/-- The table after any number of iterations. -/
theorem tracks (k : ℕ) : Tracks W σ k (run k).state.proc := by
  rcases Nat.lt_or_ge T k with hlt | hle
  · obtain ⟨s, hs, hclose⟩ := h.done k hlt
    rw [hs]
    refine ⟨hclose.tracks.length_eq, hclose.tracks.name_eq, hclose.tracks.ready_eq, fun i hi => ?_⟩
    rw [h.toCompletes.served_eq hlt.le]
    exact hclose.tracks.exec_eq i hi
  · obtain ⟨s, hs, hshow⟩ := h.next k hle
    rw [hs]
    exact hshow.tracks

/-- A counter has reached 0 when the process has had all its units. -/
theorem exec_eq_zero_iff (hW : WellFormed W) {i : ℕ} (hi : i < W.length) (k : ℕ) :
    (entry (run k).state.proc i).exec = 0 ↔ (jobsOf W).length i ≤ σ.served k i := by
  have hexec := (h.tracks k).exec_eq_left hW hi (h.legal.served_le k)
  rw [Jobs.left] at hexec
  omega

/-- The marks logged so far, finishes apart, are those of the units so far. -/
theorem mem_marks {m : Mark} (hm : ∀ i, m ≠ .finish i) (k c : ℕ) :
    (c, m) ∈ (run k).state.log.marks ↔ (c, m) ∈ trace W σ delay (min k T) := by
  rcases Nat.lt_or_ge T k with hlt | hle
  · obtain ⟨s, hs, hclose⟩ := h.done k hlt
    rw [hs, Outcome.state_done, hclose.marks, Nat.min_eq_right hlt.le]
  · obtain ⟨s, hs, hshow⟩ := h.next k hle
    rw [hs, Outcome.state_next, Nat.min_eq_left hle, ← hshow.marks, List.mem_append]
    refine ⟨Or.inl, fun hor => hor.resolve_right fun hf => ?_⟩
    obtain ⟨-, j, -, hj⟩ := mem_finishMarks.mp hf
    exact hm j hj

/-- The schedule can be read off the log. -/
theorem decremented (t : ℕ) : (run (t + 1)).state.log.decremented t = σ t := by
  apply decremented_eq
  intro i
  rw [h.mem_marks fun _ => Mark.noConfusion, decrement_mem_trace]
  refine ⟨fun hm => hm.2, fun hrun => ⟨?_, hrun⟩⟩
  exact lt_min (Nat.lt_succ_self t) (h.lt_of_run hrun)

/-- A context switch is logged when a process is put on the processor. -/
theorem switch_mem (c i : ℕ) :
    (c, Mark.switch i) ∈ (run (c + 1)).state.log.marks ↔ σ.Starts c i := by
  rw [h.mem_marks fun _ => Mark.noConfusion, switch_mem_trace]
  refine ⟨fun hm => hm.2, fun hstart => ⟨?_, hstart⟩⟩
  exact lt_min (Nat.lt_succ_self c) (h.lt_of_run hstart.1)

/-- A finish is counted in the iteration after the last unit of the process. -/
theorem finish_mem (hdelay : delay = 1) (c i : ℕ) :
    (c, Mark.finish i) ∈ (run (c + 1)).state.log.marks ↔ (jobsOf W).ended σ c = some i := by
  subst hdelay
  have hpos : (jobsOf W).ended σ c = some i → ∃ u, c = u + 1 ∧ σ u = some i := fun hend => by
    cases c with
    | zero => simp [Jobs.ended] at hend
    | succ u => exact ⟨u, rfl, (Jobs.ended_eq_some.mp hend).1⟩
  rcases Nat.lt_or_ge c T with hlt | hle
  · obtain ⟨s, hs, hshow⟩ := h.next (c + 1) hlt
    have hmem : (c, Mark.finish i) ∈ s.log.marks ↔ (c, Mark.finish i) ∈ trace W σ 1 (c + 1) := by
      rw [← hshow.marks, List.mem_append]
      refine ⟨Or.inl, fun hm => hm.resolve_right fun hf => ?_⟩
      have := (mem_finishMarks.mp hf).1
      omega
    rw [hs, Outcome.state_next, hmem, finish_mem_trace]
    refine ⟨?_, fun hend => ?_⟩
    · rintro ⟨u, -, rfl, hend⟩
      exact hend
    · obtain ⟨u, rfl, -⟩ := hpos hend
      exact ⟨u, by omega, rfl, hend⟩
  · obtain ⟨s, hs, hclose⟩ := h.done (c + 1) (by omega)
    rw [hs, Outcome.state_done, hclose.marks, finish_mem_trace]
    refine ⟨?_, fun hend => ?_⟩
    · rintro ⟨u, -, rfl, hend⟩
      exact hend
    · obtain ⟨u, rfl, hrun⟩ := hpos hend
      exact ⟨u, h.lt_of_run hrun, rfl, hend⟩

/-- A counter is positive while the process has units left. -/
theorem exec_pos_iff (hW : WellFormed W) {i : ℕ} (hi : i < W.length) (k : ℕ) :
    0 < (entry (run k).state.proc i).exec ↔ σ.served k i < (jobsOf W).length i := by
  have hexec := (h.tracks k).exec_eq_left hW hi (h.legal.served_le k)
  rw [Jobs.left] at hexec
  omega

/-- Eligible processes as the clock and the counters show them. -/
theorem eligible_iff (hW : WellFormed W) {i : ℕ} (hi : i < W.length) (k : ℕ) :
    (jobsOf W).Eligible σ k i ↔
      (entry W i).ready ≤ k ∧ 0 < (entry (run k).state.proc i).exec := by
  have hrel := hW.release_eq hi
  rw [h.exec_pos_iff hW hi]
  constructor
  · intro hel
    have := hel.released
    exact ⟨by omega, hel.unfinished⟩
  · rintro ⟨hready, hunf⟩
    exact ⟨mem_jobsOf.mpr hi, by omega, hunf⟩

end Describes

end ProcSched
