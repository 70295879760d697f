/-
  ProcSched.Refine.Faults

  Forks that fail.  `Os.Faulty` is a kernel whose forks succeed or fail by a
  pattern; `Os.healed` is the kernel whose forks all succeed, and that agrees with
  it where they do.  In FIFO and RR a failed fork leaves its entry at pid -1 for
  the rest of the run (`Forked`), in SJF and PSJF it ends the program.
-/

import ProcSched.Refine.Calls
import ProcSched.Refine.Counts

namespace ProcSched

/-- The `j`-th call of `fork` returns a fresh positive pid if `pattern j`, and -1
    otherwise; the calls for an existing process succeed, and
    `sched_setaffinity` fails for pid -1. -/
structure Os.Faulty (os : Os) (pattern : ℕ → Bool) : Prop where
  fork_ok : ∀ log, pattern log.forked.length = true →
    0 < os.fork log ∧ os.fork log ∉ log.forked
  fork_fail : ∀ log, pattern log.forked.length = false → os.fork log = -1
  setaffinity_ok : ∀ pid core, 0 < pid → 0 ≤ os.setaffinity pid core
  setaffinity_fail : ∀ core, os.setaffinity (-1) core < 0
  setscheduler_ok : ∀ pid policy prio, 0 < pid → 0 ≤ os.setscheduler pid policy prio
  getpid_pos : 0 < os.getpid

/-- A kernel whose forks fail by a pattern. -/
def Os.failing (pattern : ℕ → Bool) : Os where
  fork log := if pattern log.forked.length then log.forked.foldl max 1000 + 1 else -1
  setaffinity pid _ := if pid < 0 then -1 else 0
  setscheduler pid _ _ := if pid < 0 then -1 else 0
  getpid := 1000
  outside := 0

theorem Os.failing_faulty (pattern : ℕ → Bool) : (Os.failing pattern).Faulty pattern where
  fork_ok log h := by
    have hle := le_foldl_max log.forked 1000
    simp only [failing, h, if_true]
    refine ⟨by omega, fun hmem => ?_⟩
    have := mem_le_foldl_max hmem 1000
    omega
  fork_fail log h := by simp [failing, h]
  setaffinity_ok pid core h := by
    simp only [failing]
    rw [if_neg (by omega)]
  setaffinity_fail core := by simp [failing]
  setscheduler_ok pid policy prio h := by
    simp only [failing]
    rw [if_neg (by omega)]
  getpid_pos := show (0 : Int) < 1000 by decide

/-- The kernel with its failing forks replaced by succeeding ones. -/
def Os.healed (os : Os) : Os :=
  { os with fork := fun log =>
      if 0 < os.fork log then os.fork log else log.forked.foldl max 1000 + 1 }

section Kernel

variable {os : Os} {pattern : ℕ → Bool} (hos : os.Faulty pattern)
include hos

theorem Os.Faulty.fork_cases (log : Log) : os.fork log = -1 ∨ 0 < os.fork log := by
  cases h : pattern log.forked.length with
  | true => exact Or.inr (hos.fork_ok log h).1
  | false => exact Or.inl (hos.fork_fail log h)

theorem Os.Faulty.fork_ge (log : Log) : -1 ≤ os.fork log := by
  rcases hos.fork_cases log with h | h <;> omega

theorem Os.Faulty.healed : os.healed.Healthy where
  fork_pos log := by
    have hle := le_foldl_max log.forked 1000
    simp only [Os.healed]
    split <;> omega
  fork_fresh log := by
    simp only [Os.healed]
    split
    · next hpos =>
      cases h : pattern log.forked.length with
      | true => exact (hos.fork_ok log h).2
      | false =>
          have := hos.fork_fail log h
          omega
    · intro hmem
      have := mem_le_foldl_max hmem 1000
      omega
  setaffinity_ok := hos.setaffinity_ok
  setscheduler_ok := hos.setscheduler_ok
  getpid_pos := hos.getpid_pos

end Kernel

/-- Where a fork succeeds the healed kernel forks alike. -/
theorem Os.healed_fork {os : Os} {log : Log} (h : 0 < os.fork log) :
    os.healed.fork log = os.fork log := if_pos h

/-! ## The fork scan under two kernels -/

section Scan

variable {now : ℕ} {spawn spawn' : ℕ → Process → Log → Except Log (Process × Log)}

variable (now) in
/-- A scan that forks as another one wherever it does not end the program. -/
theorem forkScan_error_or_eq (h : ∀ i p log, (∃ l, spawn i p log = .error l) ∨
    spawn i p log = spawn' i p log) (i : ℕ) (ps : List Process) (log : Log) :
    (∃ l, forkScan spawn now i ps log = .error l) ∨
      forkScan spawn now i ps log = forkScan spawn' now i ps log := by
  induction ps generalizing i log with
  | nil => exact Or.inr rfl
  | cons p ps ih =>
      -- the head of the table first, then the rest from the log it leaves
      have hfirst : (∃ l, (if p.ready = now then spawn i p log else .ok (p, log)) = .error l) ∨
          (if p.ready = now then spawn i p log else .ok (p, log)) =
            (if p.ready = now then spawn' i p log else .ok (p, log)) := by
        split
        · exact h i p log
        · exact Or.inr rfl
      rcases hfirst with ⟨l, hl⟩ | heq
      · exact Or.inl ⟨l, by simp only [forkScan, hl]⟩
      · cases hx : (if p.ready = now then spawn' i p log else .ok (p, log)) with
        | error l => exact Or.inl ⟨l, by simp only [forkScan, heq, hx]⟩
        | ok x =>
            rcases ih (i + 1) x.2 with ⟨l, hl⟩ | hrest
            · exact Or.inl ⟨l, by simp only [forkScan, heq, hx, hl]⟩
            · exact Or.inr (by simp only [forkScan, heq, hx, hrest])

/-- A scan that forks as another one as long as there were fewer than `n` forks. -/
theorem forkScan_congr {n : ℕ} (h : ∀ i p log, log.forked.length < n →
    spawn i p log = spawn' i p log)
    (hone : ∀ i p log p' log', spawn i p log = .ok (p', log') →
      log'.forked.length = log.forked.length + 1) (i : ℕ) (ps : List Process) (log : Log)
    (hn : log.forked.length + ps.countP (fun p => p.ready = (now : Int)) ≤ n) :
    forkScan spawn now i ps log = forkScan spawn' now i ps log := by
  induction ps generalizing i log with
  | nil => rfl
  | cons p ps ih =>
      rw [List.countP_cons] at hn
      by_cases hready : p.ready = now
      -- a fork uses up one of the `n`
      · simp only [hready, decide_true, if_true] at hn
        have heq := h i p log (by omega)
        cases hx : spawn i p log with
        | error l => simp only [forkScan, hready, if_true, ← heq, hx]
        | ok x =>
            have hlen := hone i p log x.1 x.2 hx
            have hrest := ih (i + 1) x.2 (by omega)
            simp only [forkScan, hready, if_true, ← heq, hx, hrest]
      · simp only [hready, decide_false, Bool.false_eq_true, if_false, Nat.add_zero] at hn
        simp only [forkScan, hready, if_false, ih (i + 1) log hn]

theorem forkScan_ne_error (h : ∀ i p log l, spawn i p log ≠ .error l) (i : ℕ)
    (ps : List Process) (log l : Log) : forkScan spawn now i ps log ≠ .error l := by
  induction ps generalizing i log l with
  | nil => simp [forkScan]
  | cons p ps ih =>
      cases hx : (if p.ready = now then spawn i p log else .ok (p, log)) with
      | error l' =>
          split at hx
          · exact absurd hx (h i p log l')
          · cases hx
      | ok x =>
          simp only [forkScan, hx]
          cases hrest : forkScan spawn now (i + 1) ps x.2 with
          | error l' => exact absurd hrest (ih (i + 1) x.2 l')
          | ok y => simp

/-- A scan that goes through has forked every entry whose ready time has come. -/
theorem forkScan_length (hone : ∀ i p log p' log', spawn i p log = .ok (p', log') →
    log'.forked.length = log.forked.length + 1) {i : ℕ} {ps ps' : List Process} {log log' : Log}
    (h : forkScan spawn now i ps log = .ok (ps', log')) :
    log'.forked.length = log.forked.length + ps.countP (fun p => p.ready = (now : Int)) := by
  induction ps generalizing i log ps' with
  | nil =>
      simp only [forkScan, Except.ok.injEq, Prod.mk.injEq] at h
      rw [← h.2]
      rfl
  | cons p ps ih =>
      obtain ⟨p₁, log₁, ps₁, hfirst, hrest, rfl⟩ := forkScan_cons.mp h
      rw [ih hrest, List.countP_cons]
      by_cases hready : p.ready = now
      · rw [if_pos hready] at hfirst
        rw [hone _ _ _ _ _ hfirst]
        simp only [hready, decide_true, if_true]
        omega
      · rw [if_neg hready, Except.ok.injEq, Prod.mk.injEq] at hfirst
        rw [← hfirst.2]
        simp [hready]

end Scan

/-! ## Failed forks in FIFO and RR -/

namespace Loop

/-- The forks with clocks below `c`, and what they have left in the table. -/
structure Forked (pattern : ℕ → Bool) (W : List Process) (c : ℕ) (s : State) : Prop where
  readies : s.proc.map Process.ready = W.map Process.ready
  /-- one for each process that was due -/
  count : s.log.forked.length = W.countP fun p => p.ready < (c : Int)
  /-- -1 stands among the results if one of them was to fail -/
  failed : ∀ j < s.log.forked.length, pattern j = false → -1 ∈ s.log.forked
  /-- and it stands in the table then -/
  lost : -1 ∈ s.log.forked → ∃ i < W.length, (entry s.proc i).pid = -1 ∧ (entry W i).ready < c
  early : ∀ i < W.length, (entry s.proc i).pid ≠ -1 → (entry W i).ready < c
  /-- an entry at -1 has not been run -/
  untouched : ∀ i < W.length, (entry s.proc i).pid = -1 → (entry s.proc i).exec ≠ 0
  running : ∀ r, s.running = some r → (entry s.proc r).pid ≠ -1

variable {d : Discipline} {os : Os} {pattern : ℕ → Bool} {W : List Process} {c k : ℕ}
  {s s' s'' : State}

theorem Forked.length_eq (h : Forked pattern W c s) : s.proc.length = W.length := by
  have := congrArg List.length h.readies
  rwa [List.length_map, List.length_map] at this

theorem Forked.ready_eq (h : Forked pattern W c s) {i : ℕ} (hi : i < W.length) :
    (entry s.proc i).ready = (entry W i).ready := by
  have hi' : i < s.proc.length := by rw [h.length_eq]; exact hi
  have hget : (s.proc.map Process.ready)[i]? = (W.map Process.ready)[i]? := by rw [h.readies]
  rw [List.getElem?_map, List.getElem?_map, List.getElem?_eq_getElem hi',
    List.getElem?_eq_getElem hi, Option.map_some, Option.map_some, Option.some.injEq] at hget
  rw [entry_eq_getElem hi', entry_eq_getElem hi, hget]

/-- Tables of one length with the same ready times everywhere. -/
theorem map_ready_eq {l l' : List Process} (hlen : l'.length = l.length)
    (h : ∀ i < l.length, (entry l' i).ready = (entry l i).ready) :
    l'.map Process.ready = l.map Process.ready := by
  refine List.ext_getElem (by simp [hlen]) fun i hi hi' => ?_
  rw [List.length_map] at hi hi'
  rw [List.getElem_map, List.getElem_map, ← entry_eq_getElem hi, ← entry_eq_getElem hi', h i hi']

theorem countP_lt_succ (W : List Process) (c : ℕ) :
    (W.countP fun p => p.ready < ((c + 1 : ℕ) : Int)) =
      (W.countP fun p => p.ready < (c : Int)) + W.countP fun p => p.ready = (c : Int) := by
  induction W with
  | nil => rfl
  | cons p W ih =>
      simp only [List.countP_cons, ih, decide_eq_true_eq]
      push_cast
      split <;> split <;> split <;> omega

theorem Forked.finishTest (h : Forked pattern W c s) (htest : d.finishTest s = .next s') :
    Forked pattern W c s' := by
  rcases finishTest_next_cases htest with ⟨rfl, -⟩ | ⟨r, -, -, rfl⟩
  · exact h
  · have hlog : (d.reap s r).log.forked = s.log.forked := by simp
    exact ⟨h.readies, by rw [hlog]; exact h.count, by rw [hlog]; exact h.failed,
      by rw [hlog]; exact h.lost, h.early, h.untouched, fun r hr => by cases hr⟩

theorem finishTest_now (htest : d.finishTest s = .next s') : s'.now = s.now := by
  rcases finishTest_next_cases htest with ⟨rfl, -⟩ | ⟨r, -, -, rfl⟩
  · rfl
  · exact reap_now d s r

/-- The processes that are due, in the table of the state. -/
theorem Forked.due (h : Forked pattern W c s) (k : ℕ) :
    s.proc.countP (fun p => p.ready = (k : Int)) = W.countP fun p => p.ready = (k : Int) := by
  have hmap : ∀ l : List Process, l.countP (fun p => p.ready = (k : Int)) =
      (l.map Process.ready).countP fun r => r = (k : Int) := fun l => by
    rw [List.countP_map]
    rfl
  rw [hmap, hmap, h.readies]

theorem Forked.switch (h : Forked pattern W c s) (hf : d.Forks os) (hp : d.Picks)
    (hs : d.contextSwitch os s = .next s') : Forked pattern W c s' := by
  rcases contextSwitch_cases hs with ⟨-, rfl⟩ | ⟨i, -, -, rfl⟩ | ⟨i, hnext, hne, rfl⟩
  · exact h
  · have hlog : (s.log ++ [(s.now, Event.mark (.select i))] : Log).forked = s.log.forked := by
      simp
    exact ⟨h.readies, hlog ▸ h.count, hlog ▸ h.failed, hlog ▸ h.lost, h.early, h.untouched,
      h.running⟩
  · have hlog : (s.log ++ [(s.now, Event.mark (.select i))] ++ d.wakeup os s i ++
        [(s.now, .mark (.switch i))] : Log).forked = s.log.forked := by
      simp [hf.wakeup]
    refine ⟨h.readies, hlog ▸ h.count, hlog ▸ h.failed, hlog ▸ h.lost, h.early, h.untouched,
      fun r hr => ?_⟩
    rw [← Option.some.inj hr]
    exact (hp s i hnext hne).1

theorem Forked.unit (h : Forked pattern W c s) : Forked pattern W c s.unit := by
  have hpid := unit_pid s
  cases hr : s.running with
  | none =>
      have hunit : s.unit = { s with now := s.now + 1 } := by rw [State.unit, hr]
      rw [hunit]
      exact ⟨h.readies, h.count, h.failed, h.lost, h.early, h.untouched, h.running⟩
  | some r =>
      have hunit : s.unit = { s with
          proc := s.proc.modify r fun p => { p with exec := p.exec - 1 }
          now := s.now + 1
          log := s.log ++ [(s.now, .mark (.decrement r))] } := by rw [State.unit, hr]
      have hlog : s.unit.log.forked = s.log.forked := by simp [hunit]
      have hready : s.unit.proc.map Process.ready = s.proc.map Process.ready := by
        rw [hunit]
        refine map_ready_eq (List.length_modify _ _ _) fun i hi => ?_
        rw [entry_modify hi]
        split <;> rfl
      -- the unit is one of the running process, which has a pid
      refine ⟨hready.trans h.readies, by rw [hlog]; exact h.count, by rw [hlog]; exact h.failed,
        ?_, fun i hi hne => h.early i hi (by rwa [hpid] at hne), fun i hi hnone => ?_,
        fun r' hr' => ?_⟩
      · simpa only [hlog, hpid] using h.lost
      · -- the process that has had the unit has a pid
        have hir : i ≠ r := by
          rintro rfl
          rw [hpid] at hnone
          exact h.running i hr hnone
        have hi' : i < s.proc.length := by rw [h.length_eq]; exact hi
        rw [hunit]
        simp only [entry_modify hi', if_neg hir]
        exact h.untouched i hi (by rwa [hpid] at hnone)
      · rw [hpid]
        exact h.running r' (by rw [hunit] at hr'; exact hr')

/-- The fork scan, at the clock up to which the forks are known. -/
theorem Forked.fork (h : Forked pattern W c s) (hos : os.Faulty pattern) (hf : d.Forks os)
    (hnow : s.now = c) (hfork : d.forkReady os s = .next s') : Forked pattern W (c + 1) s' := by
  obtain ⟨hlen, hentry, hrun, -, -⟩ := forkReady_pids hf hfork
  obtain ⟨proc, log, hscan, rfl⟩ := forkReady_eq_next.mp hfork
  simp only at hlen hentry hrun
  have hW := h.length_eq
  -- the scan writes the pids of the entries whose ready time is `c`, and no others
  have hold : ∀ i < W.length, (entry W i).ready ≠ c → entry proc i = entry s.proc i := by
    intro i hi hne
    obtain ⟨pid, heq, hpid⟩ := hentry i (by omega)
    rw [heq, hpid (by rw [h.ready_eq hi, hnow]; exact hne)]
  have hspawn : ∀ i p l p' l', d.spawn os s.now i p l = .ok (p', l') →
      l'.forked = l.forked ++ [p'.pid] := by
    intro i p l p' l' hsp
    rw [hf.forked _ _ _ _ _ _ hsp, hf.pid _ _ _ _ _ _ hsp (hos.fork_ge l)]
  have hone : ∀ i p l p' l', d.spawn os s.now i p l = .ok (p', l') →
      l'.forked.length = l.forked.length + 1 := by
    intro i p l p' l' hsp
    rw [hspawn i p l p' l' hsp, List.length_append, List.length_singleton]
  refine ⟨?_, ?_, ?_, fun hmem => ?_, fun i hi hne => ?_, fun i hi hnone => ?_, fun r hr => ?_⟩
  · rw [← h.readies]
    refine map_ready_eq hlen fun i hi => ?_
    obtain ⟨pid, heq, -⟩ := hentry i hi
    rw [heq]
  -- one fork for each entry that is due
  · rw [forkScan_length hone hscan, h.count, hnow, h.due, countP_lt_succ]
  -- the fork with number `j` is the `j`-th call, so it fails as the pattern says
  · refine forkScan_keeps (P := fun l => ∀ j < l.forked.length, pattern j = false → -1 ∈ l.forked)
      (fun i p l p' l' hsp hl j hj hfail => ?_) hscan h.failed
    rw [hf.forked _ _ _ _ _ _ hsp] at hj ⊢
    rw [List.length_append, List.length_singleton] at hj
    rcases Nat.lt_succ_iff_lt_or_eq.mp hj with hlt | rfl
    · exact List.mem_append_left _ (hl j hlt hfail)
    · exact List.mem_append_right _ (List.mem_singleton.mpr (hos.fork_fail l hfail).symm)
  -- a -1 of an earlier scan is in its old entry, one of this scan in the entry it was for
  · rcases forkScan_forked hspawn hscan hmem with hmem | ⟨i, hi, hready, hpid⟩
    · obtain ⟨i, hi, hpid, hlt⟩ := h.lost hmem
      exact ⟨i, hi, by rw [hold i hi (by omega)]; exact hpid, by push_cast; omega⟩
    · rw [h.ready_eq (by omega), hnow] at hready
      exact ⟨i, by omega, hpid, by push_cast; omega⟩
  · by_cases hready : (entry W i).ready = c
    · push_cast
      omega
    · rw [hold i hi hready] at hne
      have := h.early i hi hne
      push_cast
      omega
  · obtain ⟨pid, heq, hpid⟩ := hentry i (by omega)
    rw [heq]
    refine h.untouched i hi ?_
    -- an entry that was forked before is not forked again
    by_contra hne
    have hlt := h.early i hi hne
    rw [hold i hi (by omega)] at hnone
    exact hne hnone
  · have hr' := h.running r hr
    by_cases hlt : r < W.length
    · have hbefore := h.early r hlt hr'
      rw [hold r hlt (by omega)]
      exact hr'
    · have hge : proc.length ≤ r := by omega
      show (entry proc r).pid ≠ -1
      rw [entry, List.getD_eq_default _ _ hge]
      decide

/-- Every state a run goes on from. -/
theorem forked_of_next (hos : os.Faulty pattern) (hf : d.Forks os) (hp : d.Picks)
    (hready : ∀ p ∈ W, 0 ≤ p.ready) (hexec : ∀ p ∈ W, p.exec ≠ 0) {log : Log}
    (hlog : log.forked = []) {o : Outcome State} (ho : o = .next (State.initial W log)) :
    ∀ k s, Outcome.run (d.step os) o k = .next s → s.now = k ∧ Forked pattern W k s := by
  refine Outcome.run_invariant (fun s hs => ?_) fun k s s' _ _ hstep ⟨hnow, h⟩ => ?_
  · obtain rfl := Outcome.next.inj (ho.symm.trans hs)
    refine ⟨rfl, ?_, ?_, ?_, ?_, fun i hi hne => ?_, fun i hi _ => ?_, fun r hr => by cases hr⟩
    · simp [State.initial, resetPids]
    · have hzero : (W.countP fun p => p.ready < ((0 : ℕ) : Int)) = 0 := by
        rw [List.countP_eq_zero]
        intro p hp
        have := hready p hp
        simp only [decide_eq_true_eq]
        omega
      rw [hzero, State.initial, hlog]
      rfl
    · simp [State.initial, hlog]
    · simp [State.initial, hlog]
    · exact absurd (by rw [State.initial, entry_resetPids hi]) hne
    · rw [State.initial, entry_resetPids hi]
      exact hexec (entry W i) (entry_mem hi)
  -- the clock is `k` until the unit, so it is at `k` that the scan forks
  · obtain ⟨s₁, s₂, s₃, htest, hfork, hswitch, rfl⟩ := step_cases hstep
    have h₁ := h.finishTest htest
    have hnow₁ : s₁.now = k := (finishTest_now htest).trans hnow
    have h₂ := h₁.fork hos hf hnow₁ hfork
    have hnow₂ : s₂.now = k := (forkReady_pids hf hfork).2.2.2.2.trans hnow₁
    have hnow₃ : s₃.now = k := by
      rcases contextSwitch_cases hswitch with ⟨-, rfl⟩ | ⟨i, -, -, rfl⟩ | ⟨i, -, -, rfl⟩ <;>
        exact hnow₂
    exact ⟨(unit_spec s₃).2.1.trans (congrArg (· + 1) hnow₃), (h₂.switch hf hp hswitch).unit⟩

end Loop

end ProcSched
