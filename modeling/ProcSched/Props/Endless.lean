/-
  ProcSched.Props.Endless

  The tables main lets through whose times may be negative.  A process with a
  negative ready time is never forked, and one without units is never counted;
  all four schedulers then go on and on, without an error and without a stuck
  loop.

  The clock and the counters of a state are unbounded integers, those of the
  source are `int`s.  In iteration `k` the clock is `k` and a counter is at most
  `k` below its first value (`counters_of_next`), so the two agree as long as
  neither has passed the bounds of an `int`.
-/

import ProcSched.Props.RotationEnds
import ProcSched.Props.Termination

namespace ProcSched

/-- The work that can be done is done before `INT_MAX`. -/
def Fits (W : List Process) : Prop :=
  ∀ p ∈ W, max p.ready 0 + (W.map fun p => max p.exec 0).sum < intMax

instance (W : List Process) : Decidable (Fits W) :=
  inferInstanceAs (Decidable (∀ p ∈ W, max p.ready 0 + (W.map fun p => max p.exec 0).sum < intMax))

/-- Every process has a ready time that comes and a unit to run, and there is one
    unless the scheduler is PSJF. -/
def Policy.Sensible (P : Policy) (W : List Process) : Prop :=
  (∀ p ∈ W, 0 ≤ p.ready ∧ 1 ≤ p.exec) ∧ (P = psjf ∨ W ≠ [])

theorem Fits.nonNegative {W : List Process} (h : Fits W)
    (hW : ∀ p ∈ W, 0 ≤ p.ready ∧ 1 ≤ p.exec) : NonNegative W where
  ready_nonneg p hp := (hW p hp).1
  exec_nonneg p hp := by
    have := (hW p hp).2
    omega
  bounded p hp := by
    have hbound := h p hp
    have hsum : W.map (fun p => max p.exec 0) = W.map Process.exec :=
      List.map_congr_left fun p hp => max_eq_left (by have := (hW p hp).2; omega)
    rwa [hsum, max_eq_left (hW p hp).1] at hbound

theorem Fits.exec_lt {W : List Process} (h : Fits W) {p : Process} (hp : p ∈ W) :
    p.exec < intMax := by
  have hbound := h p hp
  have hle : max p.exec 0 ≤ (W.map fun p => max p.exec 0).sum :=
    List.single_le_sum (fun x hx => by
      obtain ⟨p', -, rfl⟩ := List.mem_map.mp hx
      exact le_max_right _ _) _ (List.mem_map_of_mem hp)
  omega

/-- The table after `k` iterations.  Units go only to entries whose ready time has
    come: `started` is what tells a scheduler that an entry has been forked. -/
structure Served (started : Process → Prop) (W : List Process) (k : ℕ) (proc : List Process) :
    Prop where
  length_eq : proc.length = W.length
  ready_eq : ∀ i < W.length, (entry proc i).ready = (entry W i).ready
  exec_le : ∀ i < W.length, (entry proc i).exec ≤ (entry W i).exec
  le_exec : ∀ i < W.length, (entry W i).exec - k ≤ (entry proc i).exec
  comes : ∀ i < W.length, started (entry proc i) ∨ (entry proc i).exec ≠ (entry W i).exec →
    0 ≤ (entry W i).ready

namespace Served

variable {started : Process → Prop} {W proc proc' : List Process} {k : ℕ}

theorem refl (h : ∀ i < W.length, ¬ started (entry W i)) : Served started W 0 W where
  length_eq := rfl
  ready_eq _ _ := rfl
  exec_le _ _ := Int.le_refl _
  le_exec _ _ := by omega
  comes i hi hor := hor.elim (fun hs => absurd hs (h i hi)) fun hne => absurd rfl hne

/-- The fork scan at clock `now` starts entries that are ready at `now`. -/
theorem scan (h : Served started W k proc) (now : ℕ) (hlen : proc'.length = proc.length)
    (hentry : ∀ i < proc.length, (entry proc' i).ready = (entry proc i).ready ∧
      (entry proc' i).exec = (entry proc i).exec ∧
      ((entry proc i).ready ≠ now → started (entry proc' i) → started (entry proc i))) :
    Served started W k proc' where
  length_eq := hlen.trans h.length_eq
  ready_eq i hi := (hentry i (by rw [h.length_eq]; exact hi)).1.trans (h.ready_eq i hi)
  exec_le i hi := by
    rw [(hentry i (by rw [h.length_eq]; exact hi)).2.1]
    exact h.exec_le i hi
  le_exec i hi := by
    rw [(hentry i (by rw [h.length_eq]; exact hi)).2.1]
    exact h.le_exec i hi
  comes i hi hor := by
    obtain ⟨-, hexec, hstart⟩ := hentry i (by rw [h.length_eq]; exact hi)
    by_cases hnow : (entry proc i).ready = now
    · rw [← h.ready_eq i hi, hnow]
      exact Int.natCast_nonneg now
    · rw [hexec] at hor
      exact h.comes i hi (hor.imp_left (hstart hnow))

/-- An iteration need not give a unit to anybody. -/
theorem idle (h : Served started W k proc) : Served started W (k + 1) proc :=
  { h with
    le_exec := fun i hi => by
      have := h.le_exec i hi
      omega }

/-- A unit goes to a started entry. -/
theorem unit (h : Served started W k proc) (hlen : proc'.length = proc.length) {r : ℕ}
    (hr : r < proc.length → started (entry proc r))
    (hentry : ∀ i < proc.length, (entry proc' i).ready = (entry proc i).ready ∧
      (i = r ∧ (entry proc' i).exec = (entry proc i).exec - 1 ∨
        i ≠ r ∧ entry proc' i = entry proc i)) :
    Served started W (k + 1) proc' where
  length_eq := hlen.trans h.length_eq
  ready_eq i hi := (hentry i (by rw [h.length_eq]; exact hi)).1.trans (h.ready_eq i hi)
  exec_le i hi := by
    have hle := h.exec_le i hi
    rcases (hentry i (by rw [h.length_eq]; exact hi)).2 with ⟨-, hexec⟩ | ⟨-, heq⟩
    · omega
    · rwa [heq]
  le_exec i hi := by
    have hle := h.le_exec i hi
    rcases (hentry i (by rw [h.length_eq]; exact hi)).2 with ⟨-, hexec⟩ | ⟨-, heq⟩
    · omega
    · rw [heq]
      omega
  comes i hi hor := by
    have hi' : i < proc.length := by rw [h.length_eq]; exact hi
    rcases (hentry i hi').2 with ⟨rfl, -⟩ | ⟨-, heq⟩
    · exact h.comes i hi (Or.inl (hr hi'))
    · rw [heq] at hor
      exact h.comes i hi hor

/-- An entry with units that has none left has got them. -/
theorem sensible (h : Served started W k proc) (hW : ∀ i < W.length, (entry W i).exec ≠ 0)
    (hend : ∀ i < W.length, (entry proc i).exec = 0 ∨ (entry proc i).exec < (entry W i).exec) :
    ∀ p ∈ W, 0 ≤ p.ready := by
  intro p hp
  obtain ⟨i, hi, rfl⟩ := List.getElem_of_mem hp
  have hne : (entry proc i).exec ≠ (entry W i).exec := by
    rcases hend i hi with hzero | hlt
    · rw [hzero]
      exact (hW i hi).symm
    · omega
  have hcomes := h.comes i hi (Or.inr hne)
  rwa [entry_eq_getElem hi] at hcomes

end Served

/-! ## FIFO, SJF and RR -/

namespace Loop

variable {d : Discipline} {os : Os} {s s' s'' : State} {W : List Process} {o : Outcome State}
  {log : Log} {k : ℕ}

/-- In these files -1 is the pid of an entry that has not been forked. -/
def Started (p : Process) : Prop := p.pid ≠ -1

/-- An iteration is one unit of time. -/
theorem now_step (hf : d.Forks os) (hstep : d.step os s = .next s'') : s''.now = s.now + 1 := by
  obtain ⟨s₁, s₂, s₃, htest, hfork, hswitch, rfl⟩ := step_cases hstep
  have h₁ : s₁.now = s.now := by
    rcases finishTest_next_cases htest with ⟨rfl, -⟩ | ⟨r, -, -, rfl⟩ <;> rfl
  obtain ⟨-, -, -, -, h₂⟩ := forkReady_pids hf hfork
  have h₃ : s₃.now = s₂.now := by
    rcases contextSwitch_cases hswitch with ⟨-, rfl⟩ | ⟨i, -, -, rfl⟩ | ⟨i, -, -, rfl⟩ <;> rfl
  rw [(unit_spec s₃).2.1, h₃, h₂, h₁]

theorem served_step (hf : d.Forks os) (hp : d.Picks) (hU : Underway s)
    (h : Served Started W k s.proc) (hstep : d.step os s = .next s'') :
    Served Started W (k + 1) s''.proc := by
  obtain ⟨s₁, s₂, s₃, htest, hfork, hswitch, rfl⟩ := step_cases hstep
  obtain ⟨h₁, hexec⟩ := hU.finishTest htest
  have hC := (h₁.forkReady hf hexec hfork).contextSwitch hp hswitch
  have hproc₁ : s₁.proc = s.proc := by
    rcases finishTest_next_cases htest with ⟨rfl, -⟩ | ⟨r, -, -, rfl⟩
    · rfl
    · exact reap_proc d s r
  obtain ⟨hlen, hentry, -, -, -⟩ := forkReady_pids hf hfork
  have hS₂ : Served Started W k s₂.proc := by
    rw [hproc₁] at hlen hentry
    refine h.scan s₁.now hlen fun i hi => ?_
    obtain ⟨pid, heq, hpid⟩ := hentry i hi
    rw [heq]
    refine ⟨rfl, rfl, fun hnow hs => ?_⟩
    rwa [hpid hnow] at hs
  have hproc₃ : s₃.proc = s₂.proc := by
    rcases contextSwitch_cases hswitch with ⟨-, rfl⟩ | ⟨i, -, -, rfl⟩ | ⟨i, -, -, rfl⟩ <;> rfl
  rw [← hproc₃] at hS₂
  -- the unit goes to the running process, which is forked
  obtain ⟨-, -, -, -, -, hproc⟩ := unit_spec s₃
  cases hr : s₃.running with
  | none =>
      rw [hproc, hr]
      exact hS₂.idle
  | some r =>
      rw [hr, Option.elim_some] at hproc
      refine hS₂.unit (by rw [hproc, List.length_modify]) (fun _ => (hC.running r hr).2.1)
        fun i hi => ?_
      rw [hproc, entry_modify hi]
      by_cases hir : i = r
      · rw [if_pos hir]
        exact ⟨rfl, Or.inl ⟨hir, rfl⟩⟩
      · rw [if_neg hir]
        exact ⟨rfl, Or.inr ⟨hir, rfl⟩⟩

theorem served_of_next (hf : d.Forks os) (hp : d.Picks) (ho : o = .next (State.initial W log)) :
    ∀ k s, Outcome.run (d.step os) o k = .next s →
      Underway s ∧ s.now = k ∧ Served Started W k s.proc := by
  refine Outcome.run_invariant (fun s hs => ?_) fun k s s' _ _ hstep ⟨hU, hnow, hS⟩ =>
    ⟨hU.step hf hp hstep, by rw [now_step hf hstep, hnow], served_step hf hp hU hS hstep⟩
  obtain rfl := Outcome.next.inj (ho.symm.trans hs)
  have hentry : ∀ i < W.length, entry (State.initial W log).proc i = { entry W i with pid := -1 } :=
    fun i hi => entry_resetPids hi
  refine ⟨underway_initial W log, rfl, List.length_map _, fun i hi => ?_, fun i hi => ?_,
    fun i hi => ?_, fun i hi hor => ?_⟩
  · rw [hentry i hi]
  · rw [hentry i hi]
  · rw [hentry i hi]
    exact Int.sub_le_self _ (Int.natCast_nonneg 0)
  · rw [hentry i hi] at hor
    exact hor.elim (fun hs => absurd rfl hs) fun hne => absurd rfl hne

/-- A loop that has been left had a process to count, and all ready times came. -/
theorem sensible_of_done (hf : d.Forks os) (hp : d.Picks) (ho : o = .next (State.initial W log))
    (h : Outcome.run (d.step os) o k = .done s') :
    W ≠ [] ∧ ∀ p ∈ W, 0 ≤ p.ready ∧ 1 ≤ p.exec := by
  obtain ⟨c, s, hrun, -, hne, hexec, hzero⟩ := tally_of_done hf hp ho h
  obtain ⟨-, -, hS⟩ := served_of_next hf hp ho c s hrun
  have hready := hS.sensible hexec fun i hi => Or.inl (hzero i hi)
  refine ⟨hne, fun p hp => ⟨hready p hp, ?_⟩⟩
  obtain ⟨i, hi, rfl⟩ := List.getElem_of_mem hp
  have hle := hS.exec_le i hi
  rw [hzero i hi] at hle
  have hpos := hexec i hi
  rw [entry_eq_getElem hi] at hle hpos
  omega

/-- On a healthy system an iteration goes on or leaves the loop, if the choice of
    the next process returns. -/
theorem step_next_or_done (hf : d.Forks os) {set : Int → Process → Process}
    (hspawn : ∀ now, Spawns now set (d.spawn os now)) (hnext : ∀ s, Choosing s → d.next s ≠ none)
    (hU : Underway s) : (∃ t, d.step os s = .next t) ∨ ∃ t, d.step os s = .done t := by
  rw [Discipline.step, Discipline.arrive]
  have hgo : ∀ s₁, d.finishTest s = .next s₁ →
      ∃ t, ((((d.finishTest s).bind (d.forkReady os)).bind (d.contextSwitch os)).bind
        fun s => .next s.unit) = .next t := by
    intro s₁ htest
    obtain ⟨proc, new, pids, hscan, -⟩ := forkScan_spec (hspawn s₁.now) 0 s₁.proc s₁.log
    have hfork := forkReady_eq_next.mpr ⟨_, _, hscan, rfl⟩
    obtain ⟨h₁, hexec⟩ := hU.finishTest htest
    have hC := h₁.forkReady hf hexec hfork
    rw [htest, Outcome.bind_next, hfork, Outcome.bind_next, Discipline.contextSwitch]
    cases hn : d.next { s₁ with proc := proc, log := s₁.log ++ new } with
    | none => exact absurd hn (hnext _ hC)
    | some x =>
        cases x with
        | none => exact ⟨_, rfl⟩
        | some i =>
            simp only
            split <;> exact ⟨_, rfl⟩
  rcases finishTest_cases (d := d) s with ⟨htest, -⟩ | ⟨r, -, -, htest⟩
  · exact Or.inl (hgo s htest)
  · split at htest
    · refine Or.inr ⟨d.reap s r, ?_⟩
      rw [htest]
      rfl
    · exact Or.inl (hgo _ htest)

end Loop

/-- `RR_next` returns whatever the table. -/
theorem Rr.rrNext_ne_none {s : Loop.State} (h : Loop.Choosing s) : rrNext s ≠ none := by
  rw [rrNext]
  cases hr : s.running with
  | none => exact Option.some_ne_none _
  | some r =>
      simp only
      split
      · obtain ⟨hlt, hok⟩ := h.running r hr
        obtain ⟨i, hrot, -⟩ := rotate_next hlt hok
        rw [hrot]
        exact Option.some_ne_none _
      · exact Option.some_ne_none _

/-! ## PSJF -/

namespace Psjf

variable {os : Os} {s s' : State} {W : List Process} {k : ℕ}

/-- In this file the waiting entries are the forked ones. -/
def Started (p : Process) : Prop := p.waiting = 1

theorem served_step (hmax : ∀ p ∈ W, p.exec < intMax) (h : Served Started W k s.proc)
    (hstep : step os s = .next s') : s'.time = s.time + 1 ∧ Served Started W (k + 1) s'.proc := by
  rw [step] at hstep
  split at hstep
  · cases hstep
  · obtain ⟨s₁, hfork, hnext⟩ := Outcome.bind_eq_next.mp hstep
    rw [← Outcome.next.inj hnext, State.tick_proc, State.tick_time]
    obtain ⟨htime, hS₁⟩ : s₁.time = s.time ∧ Served Started W k s₁.proc := by
      rw [forkReady] at hfork
      split at hfork
      · cases hfork
      · next proc log hscan =>
        rw [← Outcome.next.inj hfork]
        refine ⟨rfl, ?_⟩
        obtain ⟨hlen, hentry⟩ := forkScan_entries
          (R := fun p p' => p'.ready = p.ready ∧ p'.exec = p.exec) (fun i p log p' log' hs => by
            rw [spawn] at hs
            split at hs
            · cases hs
            · simp only [Except.ok.injEq, Prod.mk.injEq] at hs
              rw [← hs.1]
              exact ⟨rfl, rfl⟩) hscan
        refine h.scan s.time hlen fun i hi => ?_
        have hi' := hentry i hi
        split at hi'
        · next hready => exact ⟨hi'.1, hi'.2, fun hne => absurd hready hne⟩
        · rw [hi']
          exact ⟨rfl, rfl, fun _ hs => hs⟩
    rcases select_cases s₁ with ⟨hready, i, hi, hlt, heq⟩ | ⟨-, heq⟩
    · -- the selected entry waits
      have hbelow : BelowMax s₁.proc := Or.inr fun j hj => by
        have hj' : j < W.length := by rwa [← hS₁.length_eq]
        have hle := hS₁.exec_le j hj'
        have hlt := hmax _ (entry_mem hj')
        omega
      obtain ⟨-, hwait, -⟩ := findMinIndex_spec hbelow (someProcessIsReady_iff.mp hready)
      rw [hi] at hwait
      obtain ⟨hproc, hdispatch, -⟩ := dispatch_spec i s₁
      rw [← hproc] at hS₁ hlt hwait
      obtain ⟨hentry, hlen, hupdate, -⟩ := update_spec hlt
      rw [heq]
      refine ⟨by rw [hupdate, hdispatch, htime], hS₁.unit hlen (fun _ => hwait) fun j hj => ?_⟩
      rw [hentry j hj]
      by_cases hji : j = i
      · subst hji
        rw [if_pos rfl]
        exact ⟨rfl, Or.inl ⟨rfl, rfl⟩⟩
      · rw [if_neg hji]
        exact ⟨rfl, Or.inr ⟨hji, rfl⟩⟩
    · rw [heq, htime]
      exact ⟨rfl, hS₁.idle⟩

theorem served_of_next (hmax : ∀ p ∈ W, p.exec < intMax) (hz : ZeroWaiting W) :
    ∀ k s, psjf os W k = .next s → s.time = k ∧ Served Started W k s.proc := by
  refine Outcome.run_invariant (fun s hs => ?_) fun k s s' _ _ hstep ⟨htime, hS⟩ => ?_
  · obtain ⟨hproc, htime, -⟩ := start_eq_next hs
    rw [hproc]
    refine ⟨htime, Served.refl fun i hi hs => ?_⟩
    rw [Started, hz _ (entry_mem hi)] at hs
    cases hs
  · obtain ⟨hnext, hS'⟩ := served_step hmax hS hstep
    exact ⟨by rw [hnext, htime], hS'⟩

theorem sensible_of_done (hmax : ∀ p ∈ W, p.exec < intMax) (hz : ZeroWaiting W)
    (h : psjf os W k = .done s') : ∀ p ∈ W, 0 ≤ p.ready ∧ 1 ≤ p.exec := by
  have hpos := tally_of_done h
  have hstart : ∀ s, start os W ≠ .done s := fun s hs => by
    rw [start] at hs
    split at hs <;> cases hs
  obtain ⟨c, s, hrun, hstep⟩ := Outcome.exists_of_run_done hstart h
  obtain ⟨htally, hlen⟩ := tally_of_next c s hrun
  obtain ⟨-, hS⟩ := served_of_next hmax hz c s hrun
  -- all have been counted, so no counter is positive any more
  have hnone : (positiveEntries s.proc).card = 0 := by
    have hfinished : s.finished = s.proc.length := by
      rw [step] at hstep
      split at hstep
      · assumption
      · rw [forkReady] at hstep
        split at hstep <;> cases hstep
    have hle := Finset.card_filter_le (Finset.range W.length) fun i => 0 < (entry W i).exec
    rw [Finset.card_range] at hle
    rw [State.tally, hfinished, hlen, positiveEntries, positiveEntries] at htally
    rw [positiveEntries]
    omega
  have hready := hS.sensible (fun i hi => (hpos i hi).ne') fun i hi => by
    have hnot : i ∉ positiveEntries s.proc := by
      rw [Finset.card_eq_zero.mp hnone]
      exact Finset.notMem_empty i
    rw [positiveEntries, Finset.mem_filter, Finset.mem_range, hlen] at hnot
    have hle : ¬ 0 < (entry s.proc i).exec := fun hlt => hnot ⟨hi, hlt⟩
    exact Or.inr (Int.lt_of_le_of_lt (Int.not_lt.mp hle) (hpos i hi))
  refine fun p hp => ⟨hready p hp, ?_⟩
  obtain ⟨i, hi, rfl⟩ := List.getElem_of_mem hp
  have := hpos i hi
  rwa [entry_eq_getElem hi] at this

theorem step_next_or_done (hos : os.Healthy) (s : State) :
    (∃ t, step os s = .next t) ∨ ∃ t, step os s = .done t := by
  rw [step]
  split
  · exact Or.inr ⟨_, rfl⟩
  · obtain ⟨proc, new, pids, hscan, -⟩ := forkScan_spec (spawns hos s.time) 0 s.proc s.log
    rw [forkReady, hscan]
    exact Or.inl ⟨_, rfl⟩

end Psjf

namespace Policy

variable {P : Policy} {os : Os} {q : Qsort} {W : List Process}

/-- The choice of the next process returns in a file with the shared loop. -/
theorem next_ne_none {d : Loop.Discipline} (hd : P.discipline = some d) {s : Loop.State}
    (h : Loop.Choosing s) : d.next s ≠ none := by
  cases P with
  | fifo =>
      cases hd
      exact Option.some_ne_none _
  | sjf =>
      cases hd
      exact Option.some_ne_none _
  | rr =>
      cases hd
      exact Rr.rrNext_ne_none h
  | psjf => cases hd

/-- A scheduler that ends has been given a sensible table. -/
theorem sensible_of_done (hos : os.Healthy) (hW : Fits W) (hz : P.Fresh W) {k : ℕ} {s : Snapshot}
    (h : P.run os q W k = .done s) : P.Sensible W := by
  rcases psjf_or_loop hos P q W with rfl | ⟨d, log, -, hf, hp, -, hrun⟩
  · obtain ⟨t, ht, -⟩ := Outcome.map_eq_done.mp h
    exact ⟨Psjf.sensible_of_done (fun p => hW.exec_lt) (hz rfl) ht, Or.inl rfl⟩
  · rw [hrun] at h
    obtain ⟨t, ht, -⟩ := Outcome.map_eq_done.mp h
    obtain ⟨hne, hall⟩ := Loop.sensible_of_done hf hp rfl ht
    refine ⟨fun p hp => hall p ((P.table_perm q W).mem_iff.mpr hp), Or.inr ?_⟩
    rintro rfl
    exact hne (P.table_perm q []).eq_nil

/-- No scheduler fails or gets stuck on a healthy system. -/
theorem run_next_or_done (hos : os.Healthy) (k : ℕ) :
    (∃ s, P.run os q W k = .next s) ∨ ∃ s, P.run os q W k = .done s := by
  have hmap : ∀ {σ : Type} {f : σ → Snapshot} {o : Outcome σ},
      (∃ s, o = .next s) ∨ (∃ s, o = .done s) →
        (∃ s, o.map f = .next s) ∨ ∃ s, o.map f = .done s := by
    rintro σ f o (⟨s, rfl⟩ | ⟨s, rfl⟩)
    · exact Or.inl ⟨f s, rfl⟩
    · exact Or.inr ⟨f s, rfl⟩
  rcases psjf_or_loop hos P q W with rfl | ⟨d, log, hd, hf, hp, hspawn, hrun⟩
  · obtain ⟨s, hstart, -⟩ := Psjf.start_ok hos W
    exact hmap (Outcome.run_next_or_done ⟨_, hstart⟩
      (fun k s _ => Psjf.step_next_or_done hos s) k)
  · rw [hrun]
    refine hmap (Outcome.run_next_or_done ⟨_, rfl⟩ (fun k s hs => ?_) k)
    exact Loop.step_next_or_done hf hspawn (fun s hC => next_ne_none hd hC)
      (Loop.served_of_next hf hp rfl k s hs).1

/-- In iteration `k` the clock is `k`, and no counter has been decremented more than
    `k` times. -/
theorem counters_of_next (hos : os.Healthy) (hW : Fits W) (hz : P.Fresh W) {k : ℕ} {s : Snapshot}
    (h : P.run os q W k = .next s) : s.clock = k ∧ ∀ i < W.length,
      (entry (P.table q W) i).exec - k ≤ (entry s.proc i).exec ∧
        (entry s.proc i).exec ≤ (entry (P.table q W) i).exec := by
  have hserved : s.clock = k ∧ ∃ started, Served started (P.table q W) k s.proc := by
    rcases psjf_or_loop hos P q W with rfl | ⟨d, log, -, hf, hp, -, hrun⟩
    · obtain ⟨t, ht, rfl⟩ := Outcome.map_eq_next.mp h
      obtain ⟨htime, hS⟩ := Psjf.served_of_next (fun p => hW.exec_lt) (hz rfl) k t ht
      exact ⟨htime, _, hS⟩
    · rw [hrun] at h
      obtain ⟨t, ht, rfl⟩ := Outcome.map_eq_next.mp h
      obtain ⟨-, hnow, hS⟩ := Loop.served_of_next hf hp rfl k t ht
      exact ⟨hnow, _, hS⟩
  obtain ⟨hclock, started, hS⟩ := hserved
  refine ⟨hclock, fun i hi => ?_⟩
  rw [← P.length_table q W] at hi
  exact ⟨hS.le_exec i hi, hS.exec_le i hi⟩

/-- A scheduler ends on the sensible tables, before the clock passes `INT_MAX`. -/
theorem ends_of_sensible (hos : os.Healthy) (hW : Fits W) (hz : P.Fresh W) (h : P.Sensible W) :
    ∃ (k : ℕ) (s : Snapshot), (k : Int) ≤ intMax ∧ P.run os q W k = .done s := by
  obtain ⟨hall, hne⟩ := h
  by_cases hnil : W = []
  · have hP := hne.resolve_right fun h => h hnil
    subst hP hnil
    obtain ⟨s, hs⟩ := Policy.psjf_done_nil (q := q) hos
    exact ⟨1, s, by decide, hs⟩
  · have hW' := (hW.nonNegative hall).wellFormed hnil fun p hp => (hall p hp).2
    obtain ⟨s, hs, -⟩ := (P.describes (q := q) hos hW' hz).exists_done (P.table_wellFormed hW')
    have hle := makespan_le hW' (m := intMax - 1) fun p hp => by
      have := (hW.nonNegative hall).bounded p hp
      omega
    exact ⟨_, s, by omega, hs⟩

end Policy

/-- A scheduler ends, before the clock passes `INT_MAX`, exactly on the sensible
    tables, whatever integers the other ones hold; there it goes on and on, the
    clock being `k` in iteration `k` and a counter at most `k` below its first
    value. -/
theorem ends_iff_sensible (P : Policy) (os : Os) (q : Qsort) (W : List Process) (hos : os.Healthy)
    (hW : Fits W) (hz : P.Fresh W) :
    ((∃ (k : ℕ) (s : Snapshot), (k : Int) ≤ intMax ∧ P.run os q W k = .done s) ↔ P.Sensible W) ∧
      ((∀ k, ∃ s, P.run os q W k = .next s) ↔ ¬ P.Sensible W) ∧
      ∀ k s, P.run os q W k = .next s → s.clock = k ∧ ∀ i < W.length,
        (entry (P.table q W) i).exec - k ≤ (entry s.proc i).exec ∧
          (entry s.proc i).exec ≤ (entry (P.table q W) i).exec := by
  refine ⟨⟨?_, Policy.ends_of_sensible hos hW hz⟩, ⟨fun hgo hsens => ?_, fun hsens k => ?_⟩,
    fun k s => Policy.counters_of_next hos hW hz⟩
  · rintro ⟨k, s, -, hs⟩
    exact Policy.sensible_of_done hos hW hz hs
  · obtain ⟨k, s, -, hs⟩ := Policy.ends_of_sensible (q := q) hos hW hz hsens
    obtain ⟨t, ht⟩ := hgo k
    rw [hs] at ht
    cases ht
  · refine (Policy.run_next_or_done hos k).resolve_right ?_
    rintro ⟨s, hs⟩
    exact hsens (Policy.sensible_of_done hos hW hz hs)

/-- One process is ready before the clock starts, or it is not. -/
theorem ends_iff_sensible_early :
    (∀ k : ℕ, ∃ s, Policy.rr.run Os.counting Qsort.insertion
        (cleanTable [⟨"P1", 0, 5⟩, ⟨"P2", -1, 5⟩]) k = .next s ∧ s.clock = k ∧
      ∀ i < 2, 5 - (k : Int) ≤ (entry s.proc i).exec ∧ (entry s.proc i).exec ≤ 5) ∧
    ∃ (k : ℕ) (s : Snapshot), (k : Int) ≤ intMax ∧ Policy.rr.run Os.counting Qsort.insertion
      (cleanTable [⟨"P1", 0, 5⟩, ⟨"P2", 1, 5⟩]) k = .done s := by
  obtain ⟨-, hearly, hcounters⟩ := ends_iff_sensible .rr Os.counting Qsort.insertion
    (cleanTable [⟨"P1", 0, 5⟩, ⟨"P2", -1, 5⟩]) Os.counting_healthy (by decide) (fun h => by cases h)
  obtain ⟨hlate, -, -⟩ := ends_iff_sensible .rr Os.counting Qsort.insertion
    (cleanTable [⟨"P1", 0, 5⟩, ⟨"P2", 1, 5⟩]) Os.counting_healthy (by decide) (fun h => by cases h)
  refine ⟨fun k => ?_, hlate.mpr ⟨by decide, Or.inr (by decide)⟩⟩
  obtain ⟨s, hs⟩ := hearly.mpr
    (fun h => absurd (h.1 ⟨"P2", -1, 5, 0, 0⟩ (by decide)).1 (by decide)) k
  obtain ⟨hclock, hexec⟩ := hcounters k s hs
  have htable : ∀ i < 2, (entry (Policy.rr.table Qsort.insertion
      (cleanTable [⟨"P1", 0, 5⟩, ⟨"P2", -1, 5⟩])) i).exec = 5 := by decide
  refine ⟨s, hs, hclock, fun i hi => ?_⟩
  rw [← htable i hi]
  exact hexec i hi

end ProcSched
