/-
  ProcSched.Props.MinimumSearch

  `find_min_index` starts with INT_MAX for the least `exec` and accepts an entry
  only below it, so a waiting process with INT_MAX units is never accepted and
  the search falls back to index 0, waiting or not.  The search selects a waiting
  process with least `exec` in every iteration exactly if no process but the
  first one has INT_MAX units: such a process waits for ever, and when the others
  are done the search selects entry 0 in its place.
-/

import ProcSched.Refine.Counts
import ProcSched.Refine.Psjf
import Mathlib.Algebra.Order.BigOperators.Group.Finset

namespace ProcSched

/-- The tables PSJF may be called with: any length an `int` can hold, and no
    process waiting. -/
structure Admissible (W : List Process) : Prop where
  ready_nonneg : ∀ p ∈ W, 0 ≤ p.ready
  exec_pos : ∀ p ∈ W, 1 ≤ p.exec
  exec_le : ∀ p ∈ W, p.exec ≤ intMax
  zeroWaiting : ZeroWaiting W

instance (W : List Process) : Decidable (Admissible W) :=
  decidable_of_iff ((∀ p ∈ W, 0 ≤ p.ready) ∧ (∀ p ∈ W, 1 ≤ p.exec) ∧
      (∀ p ∈ W, p.exec ≤ intMax) ∧ ZeroWaiting W)
    ⟨fun h => ⟨h.1, h.2.1, h.2.2.1, h.2.2.2⟩, fun h => ⟨h.1, h.2, h.3, h.4⟩⟩

namespace Psjf

/-- In the state after the fork scan the search finds a waiting process with
    least `exec`, and the counter that is decremented is that of a process that
    has arrived and is not finished. -/
structure SelectsMinimum (s : State) : Prop where
  index_lt : findMinIndex s.proc < s.proc.length
  waiting : (entry s.proc (findMinIndex s.proc)).waiting = 1
  least : ∀ j < s.proc.length, (entry s.proc j).waiting = 1 →
    (entry s.proc (findMinIndex s.proc)).exec ≤ (entry s.proc j).exec
  decremented : ∀ j < s.proc.length, (entry (select s).proc j).exec ≠ (entry s.proc j).exec →
    (entry s.proc j).ready ≤ s.time ∧ 0 < (entry s.proc j).exec

/-- So it does in every iteration in which a process waits. -/
def MinimumSearch (os : Os) (W : List Process) : Prop :=
  ∀ k s s₁, psjf os W k = .next s → s.finished ≠ s.proc.length → forkReady os s = .next s₁ →
    someProcessIsReady s₁.proc = true → SelectsMinimum s₁

variable {os : Os} {W : List Process} {k i j : ℕ} {s s' s₁ : State}

/-! ## The table as long as the search is right -/

/-- The entries whose ready time is before `c` have arrived: they wait as long as
    they have units left.  The others are as they were. -/
structure Arrived (W : List Process) (c : ℕ) (proc : List Process) : Prop where
  length_eq : proc.length = W.length
  ready_eq : ∀ i < W.length, (entry proc i).ready = (entry W i).ready
  exec_le : ∀ i < W.length, (entry proc i).exec ≤ (entry W i).exec
  early : ∀ i < W.length, (c : Int) ≤ (entry W i).ready →
    (entry proc i).exec = (entry W i).exec ∧ (entry proc i).waiting = 0
  waiting_iff : ∀ i < W.length, (entry W i).ready < c →
    ((entry proc i).waiting = 1 ↔ 0 < (entry proc i).exec)

theorem arrived_zero (hW : Admissible W) : Arrived W 0 W where
  length_eq := rfl
  ready_eq _ _ := rfl
  exec_le _ _ := Int.le_refl _
  early i hi _ := ⟨rfl, hW.zeroWaiting _ (entry_mem hi)⟩
  waiting_iff i hi hlt := by
    have := hW.ready_nonneg _ (entry_mem hi)
    omega

namespace Arrived

variable (h : Arrived W (k + 1) s.proc)
include h

/-- Who waits has arrived and has units left. -/
theorem of_waiting (hi : i < W.length) (hw : (entry s.proc i).waiting = 1) :
    (entry W i).ready ≤ k ∧ 0 < (entry s.proc i).exec := by
  have hready : (entry W i).ready < (k + 1 : ℕ) := by
    by_contra hge
    have := (h.early i hi (by omega)).2
    omega
  refine ⟨by push_cast at hready; omega, (h.waiting_iff i hi hready).mp hw⟩

/-- The unit of a waiting process. -/
theorem update (hi : i < W.length) (hw : (entry s.proc i).waiting = 1) :
    Arrived W (k + 1) (update i s).proc := by
  obtain ⟨hready, hexec⟩ := h.of_waiting hi hw
  have hi' : i < s.proc.length := by rw [h.length_eq]; exact hi
  obtain ⟨hentry, hlen, -⟩ := update_spec hi'
  have hself := hentry i hi'
  rw [if_pos rfl] at hself
  have hother : ∀ j < W.length, j ≠ i → entry (Psjf.update i s).proc j = entry s.proc j := by
    intro j hj hji
    rw [hentry j (by rw [h.length_eq]; exact hj), if_neg hji]
  constructor
  · rw [hlen, h.length_eq]
  · intro j hj
    by_cases hji : j = i
    · rw [hji, hself]
      exact h.ready_eq i hi
    · rw [hother j hj hji]
      exact h.ready_eq j hj
  · intro j hj
    by_cases hji : j = i
    · have hle := h.exec_le i hi
      rw [hji, hself]
      show (entry s.proc i).exec - 1 ≤ (entry W i).exec
      omega
    · rw [hother j hj hji]
      exact h.exec_le j hj
  · intro j hj hge
    -- `i` has arrived
    have hji : j ≠ i := by
      rintro rfl
      push_cast at hge
      omega
    rw [hother j hj hji]
    exact h.early j hj hge
  · intro j hj hlt
    by_cases hji : j = i
    · rw [hji, hself, hw]
      simp only
      split <;> omega
    · rw [hother j hj hji]
      exact h.waiting_iff j hj hlt

end Arrived

/-- The fork scan of clock `k` lets the processes with this ready time arrive. -/
theorem Arrived.forkReady (hos : os.Healthy) (hW : Admissible W) (h : Arrived W k s.proc)
    (htime : s.time = k) : ∃ s₁, forkReady os s = .next s₁ ∧ Arrived W (k + 1) s₁.proc ∧
      s₁.time = k ∧ s₁.finished = s.finished ∧
      ∀ i < W.length, (entry s₁.proc i).exec = (entry s.proc i).exec := by
  obtain ⟨proc, new, pids, hscan, hspec⟩ := forkScan_spec (spawns hos s.time) 0 s.proc s.log
  -- the scan writes the pid and the waiting field of the entries that are due
  have hentry : ∀ i < W.length, entry proc i =
      if (entry W i).ready = k then { entry s.proc i with pid := pids i, waiting := 1 }
      else entry s.proc i := by
    intro i hi
    have hdue : (entry s.proc i).ready = s.time ↔ (entry W i).ready = k := by
      rw [h.ready_eq i hi, htime]
    rw [hspec.entry_eq i (by rw [h.length_eq]; exact hi)]
    simp only [hdue]
  refine ⟨{ s with proc := proc, log := s.log ++ new }, by rw [Psjf.forkReady, hscan], ?_, htime,
    rfl, fun i hi => ?_⟩
  · constructor
    · exact hspec.length_eq.trans h.length_eq
    · intro i hi
      rw [hentry i hi]
      split <;> exact h.ready_eq i hi
    · intro i hi
      rw [hentry i hi]
      split <;> exact h.exec_le i hi
    · intro i hi hge
      push_cast at hge
      rw [hentry i hi, if_neg (by omega)]
      exact h.early i hi (by omega)
    · intro i hi hlt
      push_cast at hlt
      by_cases hdue : (entry W i).ready = k
      -- it arrives with all its units
      · have hexec := (h.early i hi (by omega)).1
        have hpos := hW.exec_pos _ (entry_mem hi)
        rw [hentry i hi, if_pos hdue]
        exact iff_of_true rfl (by rw [hexec]; omega)
      · rw [hentry i hi, if_neg hdue]
        exact h.waiting_iff i hi (by omega)
  · rw [hentry i hi]
    split <;> rfl

/-! ## The loop body -/

/-- What an iteration does that goes on. -/
theorem step_eq_next (h : step os s = .next s') : s.finished ≠ s.proc.length ∧
    ∃ s₁, forkReady os s = .next s₁ ∧ s' = (select s₁).tick := by
  rw [step] at h
  split at h
  · cases h
  · next hne =>
    obtain ⟨s₁, hfork, hnext⟩ := Outcome.bind_eq_next.mp h
    exact ⟨hne, s₁, hfork, (Outcome.next.inj hnext).symm⟩

theorem select_time (s : State) : (select s).time = s.time := by
  rcases select_cases s with ⟨-, i, -, hi, heq⟩ | ⟨-, heq⟩
  · obtain ⟨hproc, htime, -⟩ := dispatch_spec i s
    rw [← hproc] at hi
    obtain ⟨-, -, htime', -⟩ := update_spec hi
    rw [heq, htime', htime]
  · rw [heq]

/-- The entry that is found loses a unit, the others keep theirs. -/
theorem entry_select (hready : someProcessIsReady s.proc = true) (hj : j < s.proc.length) :
    (entry (select s).proc j).exec =
      if j = findMinIndex s.proc then (entry s.proc j).exec - 1 else (entry s.proc j).exec := by
  rcases select_cases s with ⟨-, i, hfound, hi, heq⟩ | ⟨hnot, -⟩
  · obtain ⟨hproc, -⟩ := dispatch_spec i s
    rw [← hproc] at hi hj
    have hentry := (update_spec hi).1 j hj
    rw [heq, hentry, hproc, hfound]
    split
    · next hji => rw [hji]
    · rfl
  · rw [hready] at hnot
    cases hnot

theorem Arrived.select (h : Arrived W (k + 1) s.proc) (hsel : someProcessIsReady s.proc = true →
    (entry s.proc (findMinIndex s.proc)).waiting = 1) : Arrived W (k + 1) (select s).proc := by
  rcases select_cases s with ⟨hready, i, hfound, hi, heq⟩ | ⟨-, heq⟩
  · have hw := hsel hready
    rw [hfound] at hw
    rw [h.length_eq] at hi
    obtain ⟨hproc, -⟩ := dispatch_spec i s
    rw [← hproc] at h hw
    rw [heq]
    exact h.update hi hw
  · rw [heq]
    exact h

/-- As long as the search finds waiting processes the table stays as it should. -/
theorem arrived_of_next (hos : os.Healthy) (hW : Admissible W)
    (hsel : ∀ k s s₁, psjf os W k = .next s → s.finished ≠ s.proc.length →
      forkReady os s = .next s₁ → someProcessIsReady s₁.proc = true →
      Arrived W (k + 1) s₁.proc → s₁.time = k →
      (entry s₁.proc (findMinIndex s₁.proc)).waiting = 1) :
    ∀ k s, psjf os W k = .next s → s.time = k ∧ Arrived W k s.proc := by
  refine Outcome.run_invariant (fun s hs => ?_) fun k s s' hs _ hstep ih => ?_
  · obtain ⟨hproc, htime, -⟩ := start_eq_next hs
    rw [hproc]
    exact ⟨htime, arrived_zero hW⟩
  · obtain ⟨hne, s₁, hfork, rfl⟩ := step_eq_next hstep
    obtain ⟨s₂, hfork', h, htime, -⟩ := ih.2.forkReady hos hW ih.1
    obtain rfl := Outcome.next.inj (hfork.symm.trans hfork')
    rw [State.tick_time, State.tick_proc, select_time, htime]
    exact ⟨rfl, h.select fun hready => hsel k s s₁ hs hne hfork hready h htime⟩

/-! ## No process but the first has INT_MAX units -/

theorem Arrived.selectsMinimum (h : Arrived W (k + 1) s.proc) (htime : s.time = k)
    (hmax : ∀ j < W.length, j ≠ 0 → (entry W j).exec < intMax)
    (hready : someProcessIsReady s.proc = true) : SelectsMinimum s := by
  have hfound : findMinIndex s.proc < s.proc.length ∧
      (entry s.proc (findMinIndex s.proc)).waiting = 1 ∧
      ∀ j < s.proc.length, (entry s.proc j).waiting = 1 →
        (entry s.proc (findMinIndex s.proc)).exec ≤ (entry s.proc j).exec := by
    rcases findMinIndex_cases s.proc with ⟨hzero, hall⟩ | ⟨hlt, hw, -, hleast⟩
    -- only entry 0 can wait with as much as INT_MAX
    · have honly : ∀ i < s.proc.length, (entry s.proc i).waiting = 1 → i = 0 := by
        intro i hi hw
        by_contra hne
        have hi' : i < W.length := by rw [← h.length_eq]; exact hi
        have h₁ := hall i hi hw
        have h₂ := h.exec_le i hi'
        have h₃ := hmax i hi' hne
        omega
      obtain ⟨i, hi, hw⟩ := someProcessIsReady_iff.mp hready
      obtain rfl := honly i hi hw
      rw [hzero]
      refine ⟨hi, hw, fun j hj hjw => ?_⟩
      rw [honly j hj hjw]
    · refine ⟨hlt, hw, fun j hj hjw => ?_⟩
      have := hleast j hj hjw
      omega
  obtain ⟨hlt, hw, hleast⟩ := hfound
  refine ⟨hlt, hw, hleast, fun j hj hne => ?_⟩
  rw [entry_select hready hj] at hne
  by_cases hji : j = findMinIndex s.proc
  · have hj' : j < W.length := by rw [← h.length_eq]; exact hj
    obtain ⟨harr, hpos⟩ := h.of_waiting hj' (hji ▸ hw)
    rw [h.ready_eq j hj', htime]
    exact ⟨harr, hpos⟩
  · rw [if_neg hji] at hne
    exact absurd rfl hne

theorem minimumSearch_of_lt (hos : os.Healthy) (hW : Admissible W)
    (hmax : ∀ j < W.length, j ≠ 0 → (entry W j).exec < intMax) : MinimumSearch os W := by
  have hinv := arrived_of_next hos hW fun k s s₁ _ _ _ hready h htime =>
    (h.selectsMinimum htime hmax hready).waiting
  intro k s s₁ hs _ hfork hready
  obtain ⟨htime, h⟩ := hinv k s hs
  obtain ⟨s₂, hfork', h', htime', -⟩ := h.forkReady hos hW htime
  obtain rfl := Outcome.next.inj (hfork.symm.trans hfork')
  exact h'.selectsMinimum htime' hmax hready

/-! ## Another process has INT_MAX units -/

/-- Units left in the table. -/
def unitsLeft (proc : List Process) : ℕ :=
  ∑ i ∈ Finset.range proc.length, (entry proc i).exec.toNat

section Starved

variable (hos : os.Healthy) (hW : Admissible W) (hM : MinimumSearch os W) (hj : j < W.length)
  (hne : j ≠ 0) (hmax : intMax ≤ (entry W j).exec)
include hos hW hM

theorem MinimumSearch.arrived : ∀ k s, psjf os W k = .next s → s.time = k ∧ Arrived W k s.proc :=
  arrived_of_next hos hW fun k s s₁ hs hne hfork hready _ _ => (hM k s s₁ hs hne hfork hready).waiting

include hj hne hmax

/-- The search passes such a process by, so it keeps its units and the loop goes
    on for ever. -/
theorem MinimumSearch.starves : ∀ k, ∃ s, psjf os W k = .next s ∧
    (entry s.proc j).exec = (entry W j).exec := by
  intro k
  induction k with
  | zero =>
      obtain ⟨s, hs, hproc, -⟩ := start_ok hos W
      exact ⟨s, hs, by rw [hproc]⟩
  | succ k ih =>
      obtain ⟨s, hs, hexec⟩ := ih
      obtain ⟨htime, h⟩ := hM.arrived hos hW k s hs
      obtain ⟨s₁, hfork, h₁, -, -, hexec₁⟩ := h.forkReady hos hW htime
      have hlen := h₁.length_eq
      -- it is not counted, so not all are
      have hcount : s.finished ≠ s.proc.length := by
        obtain ⟨htally, hlen⟩ := tally_of_next k s hs
        have hmem : j ∈ positiveEntries s.proc := by
          have := hW.exec_pos _ (entry_mem hj)
          exact Finset.mem_filter.mpr ⟨Finset.mem_range.mpr (by omega), by omega⟩
        have hpos := Finset.card_pos.mpr ⟨j, hmem⟩
        have hle : (positiveEntries W).card ≤ W.length := by
          have := Finset.card_filter_le (Finset.range W.length) fun i => 0 < (entry W i).exec
          rwa [Finset.card_range] at this
        rw [State.tally] at htally
        omega
      refine ⟨(select s₁).tick, ?_, ?_⟩
      · rw [psjf, Outcome.run_succ, ← psjf, hs, Outcome.bind_next, step, if_neg hcount, hfork,
          Outcome.bind_next]
      · rw [State.tick_proc]
        by_cases hready : someProcessIsReady s₁.proc = true
        · -- the entry that is found has fewer units, or is entry 0
          have hother : j ≠ findMinIndex s₁.proc := by
            intro heq
            rcases findMinIndex_cases s₁.proc with ⟨hzero, -⟩ | ⟨-, -, hlt, -⟩
            · exact hne (heq.trans hzero)
            · rw [← heq, hexec₁ j hj, hexec] at hlt
              omega
          rw [entry_select hready (by omega), if_neg hother, hexec₁ j hj, hexec]
        · rw [Psjf.select, if_neg hready, hexec₁ j hj, hexec]

/-- From its ready time on somebody runs in every unit. -/
theorem MinimumSearch.unitsLeft_lt (hk : (entry W j).ready ≤ k) (hs : psjf os W k = .next s)
    (hs' : psjf os W (k + 1) = .next s') : unitsLeft s'.proc < unitsLeft s.proc := by
  obtain ⟨t, ht, hexec⟩ := hM.starves hos hW hj hne hmax k
  obtain rfl := Outcome.next.inj (hs.symm.trans ht)
  obtain ⟨htime, h⟩ := hM.arrived hos hW k s hs
  obtain ⟨hlive, s₁, hfork, rfl⟩ := step_eq_next ((Outcome.run_succ_of_next hs).symm.trans hs')
  obtain ⟨s₂, hfork', h₁, -, -, hexec₁⟩ := h.forkReady hos hW htime
  obtain rfl := Outcome.next.inj (hfork.symm.trans hfork')
  have hready : someProcessIsReady s₁.proc = true := by
    refine someProcessIsReady_iff.mpr ⟨j, by rw [h₁.length_eq]; exact hj, ?_⟩
    have hpos := hW.exec_pos _ (entry_mem hj)
    refine (h₁.waiting_iff j hj (by push_cast; omega)).mpr ?_
    rw [hexec₁ j hj, hexec]
    omega
  obtain ⟨hlt, hw, -, -⟩ := hM k s s₁ hs hlive hfork hready
  have hlt' : findMinIndex s₁.proc < W.length := by rw [← h₁.length_eq]; exact hlt
  obtain ⟨-, hpos⟩ := h₁.of_waiting hlt' hw
  have hlen : (select s₁).proc.length = s.proc.length := by
    rw [(h₁.select fun _ => hw).length_eq, h.length_eq]
  rw [State.tick_proc, unitsLeft, unitsLeft, hlen, h.length_eq]
  have hentry : ∀ i < W.length, (entry (select s₁).proc i).exec =
      if i = findMinIndex s₁.proc then (entry s.proc i).exec - 1 else (entry s.proc i).exec := by
    intro i hi
    rw [entry_select hready (by rw [h₁.length_eq]; exact hi), hexec₁ i hi]
  apply Finset.sum_lt_sum
  · intro i hi
    rw [hentry i (Finset.mem_range.mp hi)]
    split <;> omega
  · refine ⟨findMinIndex s₁.proc, Finset.mem_range.mpr hlt', ?_⟩
    rw [hexec₁ _ hlt'] at hpos
    rw [hentry _ hlt', if_pos rfl]
    omega

end Starved

theorem MinimumSearch.lt_intMax (hos : os.Healthy) (hW : Admissible W) (hM : MinimumSearch os W)
    (hj : j < W.length) (hne : j ≠ 0) : (entry W j).exec < intMax := by
  by_contra hge
  have hmax : intMax ≤ (entry W j).exec := by omega
  have hrun := hM.starves hos hW hj hne hmax
  set r := (entry W j).ready.toNat with hr
  -- a unit less in every iteration from clock `r` on
  have hdown : ∀ m s t, psjf os W r = .next s → psjf os W (r + m) = .next t →
      unitsLeft t.proc + m ≤ unitsLeft s.proc := by
    intro m
    induction m with
    | zero =>
        intro s t hs ht
        rw [Outcome.next.inj (hs.symm.trans ht), Nat.add_zero]
    | succ m ih =>
        intro s t hs ht
        obtain ⟨u, hu, -⟩ := hrun (r + m)
        have h₁ := ih s u hs hu
        have h₂ := hM.unitsLeft_lt hos hW hj hne hmax (by omega) hu ht
        omega
  obtain ⟨s, hs, -⟩ := hrun r
  obtain ⟨t, ht, -⟩ := hrun (r + (unitsLeft s.proc + 1))
  have := hdown _ s t hs ht
  omega

/-- The minimum search is right in every iteration exactly if no process but the
    first one in the table has INT_MAX units. -/
theorem minimumSearch_iff (os : Os) (W : List Process) (hos : os.Healthy) (hW : Admissible W) :
    MinimumSearch os W ↔ ∀ j < W.length, j ≠ 0 → (entry W j).exec < intMax :=
  ⟨fun hM _ hj hne => hM.lt_intMax hos hW hj hne, minimumSearch_of_lt hos hW⟩

theorem minimumSearch_iff_readme : MinimumSearch Os.counting readmeWorkload ↔
    ∀ j < readmeWorkload.length, j ≠ 0 → (entry readmeWorkload j).exec < intMax :=
  minimumSearch_iff Os.counting readmeWorkload Os.counting_healthy (by decide)

/-- P2 waits with INT_MAX units before P1 is ready. -/
def lateWorkload : List Process := cleanTable [⟨"P1", 1, 1⟩, ⟨"P2", 0, 2147483647⟩]

/-- At clock 0 the search selects P1, which has not arrived. -/
theorem lateWorkload_not_minimumSearch :
    Os.counting.Healthy ∧ Admissible lateWorkload ∧ ¬ MinimumSearch Os.counting lateWorkload := by
  refine ⟨Os.counting_healthy, by decide, fun hM => ?_⟩
  have h := (hM 0 _ _ rfl (by decide) rfl (by decide)).waiting
  revert h
  decide

end Psjf
end ProcSched
