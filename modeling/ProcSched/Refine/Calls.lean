/-
  ProcSched.Refine.Calls

  The children of a run, as the system calls show them.  The pids `fork` has
  returned are those of the arrived entries, without repetition, and the calls
  of `waitpid` are the finishes the loop has noticed, in their order
  (`Children`).  Of the unfinished children the one carried over stands at the
  foreground policy of its file and the others at `SCHED_IDLE` (`Fronts`).
-/

import ProcSched.Refine.Phases

namespace ProcSched

/-! ## Finishes -/

/-- The finishes noticed at the clocks before `k`, oldest first. -/
def endings (W : List Process) (σ : Schedule ℕ) : ℕ → List (ℕ × ℕ)
  | 0 => []
  | k + 1 => endings W σ k ++ ((jobsOf W).ended σ k).toList.map fun i => (k, i)

section Endings

variable {W : List Process} {σ : Schedule ℕ} {k c i : ℕ}

theorem endings_succ (W : List Process) (σ : Schedule ℕ) (k : ℕ) :
    endings W σ (k + 1) =
      endings W σ k ++ ((jobsOf W).ended σ k).toList.map fun i => (k, i) := rfl

theorem mem_endings : (c, i) ∈ endings W σ k ↔ c < k ∧ (jobsOf W).ended σ c = some i := by
  induction k with
  | zero => simp [endings]
  | succ k ih =>
      rw [endings_succ, List.mem_append, ih]
      simp only [List.mem_map, Option.mem_toList, Prod.mk.injEq, exists_eq_right_right]
      constructor
      · rintro (⟨hlt, hend⟩ | ⟨hend, rfl⟩)
        · exact ⟨by omega, hend⟩
        · exact ⟨Nat.lt_succ_self k, hend⟩
      · rintro ⟨hlt, hend⟩
        rcases Nat.lt_succ_iff_lt_or_eq.mp hlt with hlt | rfl
        · exact Or.inl ⟨hlt, hend⟩
        · exact Or.inr ⟨hend, rfl⟩

/-- Nothing is run after its end. -/
theorem Jobs.Legal.not_run_of_ended {J : Jobs ℕ} (hL : J.Legal σ) (hend : J.ended σ c = some i)
    (hck : c ≤ k) : σ k ≠ some i :=
  hL.not_run ((Jobs.ended_eq_some.mp hend).2.trans (Schedule.served_le_served i hck))

/-- Finishes are noticed one after the other. -/
theorem endings_sorted (W : List Process) (σ : Schedule ℕ) (k : ℕ) :
    (endings W σ k).Pairwise fun e e' => e.1 < e'.1 := by
  induction k with
  | zero => exact List.Pairwise.nil
  | succ k ih =>
      rw [endings_succ, List.pairwise_append]
      refine ⟨ih, ?_, fun e he e' he' => ?_⟩
      · cases (jobsOf W).ended σ k <;> simp
      · obtain ⟨i, -, rfl⟩ := List.mem_map.mp he'
        exact (mem_endings.mp he).1

/-- Nobody finishes twice. -/
theorem ended_unique (hL : (jobsOf W).Legal σ) {c' : ℕ} (h : (jobsOf W).ended σ c = some i)
    (h' : (jobsOf W).ended σ c' = some i) : c = c' := by
  have hlate : ∀ a b, (jobsOf W).ended σ a = some i → (jobsOf W).ended σ b = some i → ¬ a < b := by
    intro a b ha hb hab
    obtain ⟨u, rfl, hrun⟩ := Jobs.run_of_ended hb
    exact hL.not_run_of_ended ha (Nat.le_of_lt_succ hab) hrun
  have h₁ := hlate c c' h h'
  have h₂ := hlate c' c h' h
  omega

theorem endings_nodup (hL : (jobsOf W).Legal σ) (k : ℕ) :
    ((endings W σ k).map Prod.snd).Nodup := by
  rw [List.Nodup, List.pairwise_map]
  refine (endings_sorted W σ k).imp_of_mem fun {e e'} he he' hlt heq => ?_
  have h := (mem_endings.mp he).2
  have h' := (mem_endings.mp he').2
  rw [heq] at h
  exact absurd (ended_unique hL h h') (by omega)

/-- The finish of a process is noticed at the clock at which its counter reaches 0. -/
theorem le_iff_of_ended (hL : (jobsOf W).Legal σ) (h : (jobsOf W).ended σ c = some i) :
    c ≤ k ↔ (jobsOf W).length i ≤ σ.served k i := by
  have hle := (Jobs.ended_eq_some.mp h).2
  refine ⟨fun hck => hle.trans (Schedule.served_le_served i hck), fun hdone => ?_⟩
  -- otherwise the last unit, just before `c`, would be one too many
  by_contra hlt
  obtain ⟨u, rfl, hrun⟩ := Jobs.run_of_ended h
  have hunf := (hL u i hrun).unfinished
  have hmono := Schedule.served_le_served (σ := σ) i (show k ≤ u by omega)
  omega

end Endings

/-! ## The fork scan -/

/-- Only the scan's own children are new. -/
theorem forkScan_forked {now : ℕ} {spawn : ℕ → Process → Log → Except Log (Process × Log)}
    (hspawn : ∀ i p log p' log', spawn i p log = .ok (p', log') →
      log'.forked = log.forked ++ [p'.pid])
    {i : ℕ} {ps ps' : List Process} {log log' : Log}
    (h : forkScan spawn now i ps log = .ok (ps', log')) {pid : Int} :
    pid ∈ log'.forked → pid ∈ log.forked ∨
      ∃ k < ps.length, (entry ps k).ready = now ∧ (entry ps' k).pid = pid := by
  induction ps generalizing i log ps' with
  | nil =>
      simp only [forkScan, Except.ok.injEq, Prod.mk.injEq] at h
      rw [← h.2]
      exact Or.inl
  | cons p ps ih =>
      intro hpid
      obtain ⟨p₁, log₁, ps₁, hfirst, hrest, rfl⟩ := forkScan_cons.mp h
      -- a pid of the rest of the scan, or one that was there after the head
      rcases ih hrest hpid with hold | ⟨k, hk, hready, heq⟩
      · by_cases hp : p.ready = now
        · rw [if_pos hp] at hfirst
          rw [hspawn _ _ _ _ _ hfirst, List.mem_append, List.mem_singleton] at hold
          rcases hold with hold | rfl
          · exact Or.inl hold
          · exact Or.inr ⟨0, Nat.succ_pos _, hp, rfl⟩
        · rw [if_neg hp, Except.ok.injEq, Prod.mk.injEq] at hfirst
          rw [← hfirst.2] at hold
          exact Or.inl hold
      · exact Or.inr ⟨k + 1, Nat.succ_lt_succ hk, hready, heq⟩

namespace Loop

/-- The system calls of a discipline: `front` is the policy a child is put at
    when it is switched to. -/
structure Discipline.Calls (d : Discipline) (os : Os) (front : SchedPolicy) : Prop where
  /-- a new child is blocked, and nothing else changes -/
  spawn : ∀ now i p log p' log', d.spawn os now i p log = .ok (p', log') →
    p'.pid = os.fork log ∧ log'.forked = log.forked ++ [p'.pid] ∧ log'.reaped = log.reaped ∧
      ∀ pid, log'.policy pid = if p'.pid = pid then some .idle else log.policy pid
  /-- the context switch neither forks nor waits -/
  quiet : ∀ s i, (d.wakeup os s i).forked = [] ∧ (d.wakeup os s i).reaped = []
  /-- it puts the next process in front -/
  promotes : ∀ s i, (entry s.proc i).pid ≠ s.runningPid os →
    (d.wakeup os s i).policy (entry s.proc i).pid = some front
  /-- it blocks the process that was running, if there was one -/
  demotes : ∀ s r i, s.running = some r → d.next s = some (some i) → i ≠ r →
    (d.wakeup os s i).policy (entry s.proc r).pid = some .idle
  /-- it leaves everybody else alone -/
  spares : ∀ s i pid, pid ≠ (entry s.proc i).pid → pid ≠ s.runningPid os →
    (d.wakeup os s i).policy pid = none

/-- The entries in `F` are the ones forked so far, and the finishes in `E` the
    ones waited for. -/
structure Children (F : ℕ → Prop) (E : List (ℕ × ℕ)) (proc : List Process) (log : Log) :
    Prop where
  mem_iff : ∀ pid, pid ∈ log.forked ↔ ∃ i, F i ∧ (entry proc i).pid = pid
  inj : ∀ i j, F i → F j → (entry proc i).pid = (entry proc j).pid → i = j
  reaped : log.reaped = E.map fun e => (e.1, (entry proc e.2).pid)

/-- Of the entries in `F` that are in `U`, `cur` is in front and the others are
    blocked. -/
structure Fronts (front : SchedPolicy) (F U : ℕ → Prop) (cur : Option ℕ) (proc : List Process)
    (log : Log) : Prop where
  front : ∀ r, cur = some r → log.policy (entry proc r).pid = some front
  back : ∀ i, F i → U i → cur ≠ some i → log.policy (entry proc i).pid = some .idle

variable {d : Discipline} {os : Os} {front : SchedPolicy} {F U : ℕ → Prop} {cur : Option ℕ}
  {E : List (ℕ × ℕ)} {proc proc' : List Process} {log log' : Log} {now : ℕ}

section Fork

variable (hs : Spawns now (fun pid p => { p with pid := pid }) (d.spawn os now))
  (hscan : forkScan (d.spawn os now) now 0 proc log = .ok (proc', log'))
  (hF : ∀ i, F i → i < proc.length ∧ (entry proc i).ready ≠ now) (hd : d.Calls os front)

include hscan hd in
/-- The pid behind `proc[-1]` stays apart from the children. -/
theorem outside_fork (hout : ∀ log, os.fork log ≠ os.outside) (h : os.outside ∉ log.forked) :
    os.outside ∉ log'.forked := by
  refine forkScan_keeps (P := fun l => os.outside ∉ l.forked) (fun i p l p' l' hsp hl => ?_)
    hscan h
  obtain ⟨hpid, hforked, -⟩ := hd.spawn _ i p l p' l' hsp
  rw [hforked, List.mem_append, List.mem_singleton, not_or]
  exact ⟨hl, fun he => hout l (hpid.symm.trans he.symm)⟩

include hs

/-- A fork returns a pid that no earlier one has returned. -/
theorem spawn_fresh : ∀ i p log p' log', d.spawn os now i p log = .ok (p', log') →
    p'.pid ∉ log.forked := by
  intro i p log p' log' hspawn
  obtain ⟨pid, new, hspawn', -, hfresh, -⟩ := hs i p log
  rw [hspawn, Except.ok.injEq, Prod.mk.injEq] at hspawn'
  rw [hspawn'.1]
  exact hfresh

include hscan hF in
/-- The scan leaves the earlier children's entries alone. -/
theorem forkScan_entry {i : ℕ} (hi : F i) : entry proc' i = entry proc i := by
  obtain ⟨ps, new, pids, hscan', hspec⟩ := forkScan_spec hs 0 proc log
  rw [hscan, Except.ok.injEq, Prod.mk.injEq] at hscan'
  obtain ⟨hlt, hne⟩ := hF i hi
  rw [hscan'.1, hspec.entry_eq i hlt, if_neg hne]

include hd

/-- Earlier children keep their policies. -/
theorem spawn_policy {pid : Int} {v : Option SchedPolicy} :
    ∀ i p log p' log', d.spawn os now i p log = .ok (p', log') →
      pid ∈ log.forked ∧ log.policy pid = v → pid ∈ log'.forked ∧ log'.policy pid = v := by
  rintro i p log p' log' hspawn ⟨hmem, hpol⟩
  have hfresh := spawn_fresh hs i p log p' log' hspawn
  obtain ⟨-, hforked, -, hpolicy⟩ := hd.spawn _ _ _ _ _ _ hspawn
  have hne : p'.pid ≠ pid := fun he => hfresh (he ▸ hmem)
  refine ⟨by rw [hforked]; exact List.mem_append_left _ hmem, ?_⟩
  rw [hpolicy, if_neg hne]
  exact hpol

include hF hscan

theorem Children.fork (h : Children F E proc log) (hE : ∀ e ∈ E, F e.2) :
    Children (fun i => F i ∨ i < proc.length ∧ (entry proc i).ready = now) E proc' log' := by
  obtain ⟨ps, new, pids, hscan', hspec⟩ := forkScan_spec hs 0 proc log
  rw [hscan, Except.ok.injEq, Prod.mk.injEq] at hscan'
  obtain ⟨rfl, rfl⟩ := hscan'
  have hold : ∀ i, F i → entry proc' i = entry proc i := fun i hi =>
    forkScan_entry hs hscan hF hi
  have hnew : ∀ i < proc.length, (entry proc i).ready = now → (entry proc' i).pid = pids i := by
    intro i hi hr
    rw [hspec.entry_eq i hi, if_pos hr]
  -- the new pids differ from the old ones
  have hfresh : ∀ i j, F i → j < proc.length → (entry proc j).ready = now →
      (entry proc' i).pid ≠ (entry proc' j).pid := by
    intro i j hi hj hr heq
    rw [hold i hi, hnew j hj hr] at heq
    exact hspec.pid_fresh j hj hr (heq ▸ (h.mem_iff _).mpr ⟨i, hi, rfl⟩)
  refine ⟨fun pid => ⟨fun hpid => ?_, ?_⟩, ?_, ?_⟩
  · rcases forkScan_forked (fun i p log p' log' hsp => (hd.spawn _ i p log p' log' hsp).2.1) hscan
      hpid with hmem | ⟨i, hi, hr, heq⟩
    · obtain ⟨i, hi, heq⟩ := (h.mem_iff pid).mp hmem
      exact ⟨i, Or.inl hi, by rw [hold i hi]; exact heq⟩
    · exact ⟨i, Or.inr ⟨hi, hr⟩, heq⟩
  · rintro ⟨i, hi | ⟨hi, hr⟩, rfl⟩
    · rw [hold i hi, Log.forked_append]
      exact List.mem_append_left _ ((h.mem_iff _).mpr ⟨i, hi, rfl⟩)
    · rw [hnew i hi hr, Log.forked_append]
      exact List.mem_append_right _ (hspec.pid_mem i hi hr)
  -- two old children, an old and a new one, two new ones
  · rintro i j (hi | ⟨hi, hri⟩) (hj | ⟨hj, hrj⟩) heq
    · rw [hold i hi, hold j hj] at heq
      exact h.inj i j hi hj heq
    · exact absurd heq (hfresh i j hi hj hrj)
    · exact absurd heq.symm (hfresh j i hj hi hri)
    · rw [hnew i hi hri, hnew j hj hrj] at heq
      exact hspec.pid_inj i hi j hj hri hrj heq
  · have hquiet := forkScan_keeps (P := fun l => l.reaped = log.reaped)
      (fun i p l p' l' hsp hl => (hd.spawn _ i p l p' l' hsp).2.2.1.trans hl) hscan rfl
    rw [hquiet, h.reaped]
    refine List.map_congr_left fun e he => ?_
    rw [hold _ (hE e he)]

theorem Fronts.fork (hC : Children F E proc log) (h : Fronts front F U cur proc log)
    (hcur : ∀ r, cur = some r → F r) :
    Fronts front (fun i => F i ∨ i < proc.length ∧ (entry proc i).ready = now) U cur proc' log' := by
  have hold : ∀ i, F i → (log'.policy (entry proc' i).pid = log.policy (entry proc i).pid) := by
    intro i hi
    rw [forkScan_entry hs hscan hF hi]
    exact (forkScan_keeps (spawn_policy hs hd) hscan ⟨(hC.mem_iff _).mpr ⟨i, hi, rfl⟩, rfl⟩).2
  refine ⟨fun r hr => ?_, ?_⟩
  · rw [hold r (hcur r hr)]
    exact h.front r hr
  · rintro i (hi | ⟨hi, hr⟩) hU hne
    · rw [hold i hi]
      exact h.back i hi hU hne
    -- a new child is blocked when it is forked, and the later forks of the scan are for others
    · refine (forkScan_each (Q := fun p l => p.pid ∈ l.forked ∧ l.policy p.pid = some .idle)
        (fun i p l p' l' hsp => ?_) (fun i p l p' l' x hsp hx => ?_) hscan i hi hr).2
      · obtain ⟨-, hforked, -, hpolicy⟩ := hd.spawn _ i p l p' l' hsp
        refine ⟨by rw [hforked]; exact List.mem_append_right _ (List.mem_singleton_self _), ?_⟩
        rw [hpolicy, if_pos rfl]
      · exact spawn_policy hs hd i p l p' l' hsp hx

end Fork

/-! ## The other phases -/

theorem Children.append (h : Children F E proc log) {new : Log} (hforked : new.forked = [])
    (hreaped : new.reaped = []) : Children F E proc (log ++ new) where
  mem_iff pid := by rw [Log.forked_append, hforked, List.append_nil, h.mem_iff]
  inj := h.inj
  reaped := by rw [Log.reaped_append, hreaped, List.append_nil, h.reaped]

theorem Fronts.append (h : Fronts front F U cur proc log) {new : Log}
    (hnew : ∀ pid, new.policy pid = none) : Fronts front F U cur proc (log ++ new) where
  front r hr := by rw [Log.policy_append, hnew, Option.none_or, h.front r hr]
  back i hi hU hne := by rw [Log.policy_append, hnew, Option.none_or, h.back i hi hU hne]

/-- What is known of the pids stays known in a table with the same pids. -/
theorem Children.congr (h : Children F E proc log)
    (hpid : ∀ i, (entry proc' i).pid = (entry proc i).pid) : Children F E proc' log where
  mem_iff pid := by simp only [h.mem_iff, hpid]
  inj i j := by simpa only [hpid] using h.inj i j
  reaped := by simpa only [hpid] using h.reaped

theorem Fronts.congr (h : Fronts front F U cur proc log)
    (hpid : ∀ i, (entry proc' i).pid = (entry proc i).pid) : Fronts front F U cur proc' log where
  front r hr := by rw [hpid, h.front r hr]
  back i hi hU hne := by rw [hpid, h.back i hi hU hne]

variable {s s' : State}

theorem Children.reap (h : Children F E s.proc s.log) (r : ℕ) :
    Children F (E ++ [(s.now, r)]) (d.reap s r).proc (d.reap s r).log where
  mem_iff pid := by
    rw [reap_proc, ← h.mem_iff pid]
    simp
  inj := h.inj
  reaped := by
    rw [reap_proc, List.map_append, ← h.reaped]
    simp

theorem Fronts.reap (h : Fronts front F U cur s.proc s.log) (r : ℕ) :
    Fronts front F U cur (d.reap s r).proc (d.reap s r).log :=
  h.append fun pid => by simp

theorem unit_pid (s : State) (i : ℕ) : (entry s.unit.proc i).pid = (entry s.proc i).pid := by
  rw [State.unit]
  cases s.running with
  | none => rfl
  | some r =>
      by_cases hi : i < s.proc.length
      · simp only [entry_modify hi]
        split <;> rfl
      · have hlen : s.proc.length ≤ i := Nat.le_of_not_lt hi
        rw [entry, entry, List.getD_eq_default _ _ hlen,
          List.getD_eq_default _ _ (by rw [List.length_modify]; exact hlen)]

theorem Children.unit (h : Children F E s.proc s.log) :
    Children F E s.unit.proc s.unit.log := by
  refine Children.congr ?_ (unit_pid s)
  rw [State.unit]
  cases s.running with
  | none => exact h
  | some r => exact h.append (by simp) (by simp)

theorem Fronts.unit (h : Fronts front F U cur s.proc s.log) :
    Fronts front F U cur s.unit.proc s.unit.log := by
  refine Fronts.congr ?_ (unit_pid s)
  rw [State.unit]
  cases s.running with
  | none => exact h
  | some r => exact h.append fun pid => by simp

/-- The context switch is about existing children only. -/
theorem Children.switch (hd : d.Calls os front) (h : Children F E s.proc s.log)
    (hs : d.contextSwitch os s = .next s') :
    Children F E s'.proc s'.log ∧ s'.log.forked = s.log.forked := by
  rcases contextSwitch_cases hs with ⟨-, rfl⟩ | ⟨i, -, -, rfl⟩ | ⟨i, -, -, rfl⟩
  · exact ⟨h, rfl⟩
  · exact ⟨h.append (by simp) (by simp), by simp⟩
  · obtain ⟨hforked, hreaped⟩ := hd.quiet s i
    exact ⟨((h.append (by simp) (by simp)).append hforked hreaped).append (by simp) (by simp),
      by simp [hforked]⟩

/-- After the context switch the process to run is in front, and no other one. -/
theorem Fronts.switch (hd : d.Calls os front) (hC : Children F E s.proc s.log)
    (hout : os.outside ∉ s.log.forked) (h : Fronts front F U s.running s.proc s.log)
    (hrun : ∀ r, s.running = some r → F r) (hnext : ∀ i, d.next s = some (some i) → F i)
    (hs : d.contextSwitch os s = .next s') : Fronts front F U s'.running s'.proc s'.log := by
  rcases contextSwitch_cases hs with ⟨-, rfl⟩ | ⟨i, -, -, rfl⟩ | ⟨i, hn, hne, rfl⟩
  · exact h
  · exact h.append fun pid => by simp
  · have hi := hnext i hn
    have hpid : ∀ j, F j → (entry s.proc j).pid ∈ s.log.forked := fun j hj =>
      (hC.mem_iff _).mpr ⟨j, hj, rfl⟩
    -- a child other than the running one is not addressed by its pid
    have hother : ∀ j, F j → s.running ≠ some j → (entry s.proc j).pid ≠ s.runningPid os := by
      intro j hj hjr heq
      cases hr : s.running with
      | none =>
          simp only [State.runningPid, hr] at heq
          exact hout (heq ▸ hpid j hj)
      | some r =>
          simp only [State.runningPid, hr] at heq
          exact hjr (hr.trans (congrArg some (hC.inj r j (hrun r hr) hj heq.symm)))
    refine ⟨fun r hr => ?_, fun j hj hU hji => ?_⟩
    · obtain rfl := Option.some.inj hr
      simp [hd.promotes s i (hother i hi hne)]
    · have hji : j ≠ i := fun he => hji (congrArg some he.symm)
      by_cases hr : s.running = some j
      · simp [hd.demotes s j i hr hn fun he => hji he.symm]
      · have hspare := hd.spares s i _ (fun he => hji (hC.inj j i hj hi he)) (hother j hj hr)
        simp [hspare, h.back j hj hU hr]

/-! ## One iteration -/

/-- The entries that have been forked before the iteration with clock `k`. -/
def Arrived (W : List Process) (k i : ℕ) : Prop := i < W.length ∧ (jobsOf W).release i < k

/-- The processes with units left at clock `k`. -/
def Unfinished (W : List Process) (σ : Schedule ℕ) (k i : ℕ) : Prop :=
  σ.served k i < (jobsOf W).length i

variable {W : List Process} {law : ChoiceLaw} {σ : Schedule ℕ} {k : ℕ}

theorem endings_arrived (hB : Before W law σ k) :
    ∀ e ∈ endings W σ (k + 1), Arrived W k e.2 := by
  rintro ⟨c, i⟩ he
  obtain ⟨hc, hend⟩ := mem_endings.mp he
  obtain ⟨u, rfl, hrun⟩ := Jobs.run_of_ended hend
  -- its last unit was before clock `k`, and by then it had been released
  have hel := hB.legal u (by omega) i hrun
  have hrel := hel.released
  exact ⟨mem_jobsOf.mp hel.mem, show (jobsOf W).release i < k by omega⟩

theorem finishTest_forked (s : State) :
    (d.finishTest s).state.log.forked = s.log.forked := by
  rcases finishTest_cases (d := d) s with ⟨htest, -⟩ | ⟨r, -, -, htest⟩
  · rw [htest, Outcome.state_next]
  · rw [htest]
    split <;> simp

theorem Fronts.finishTest (h : Fronts front F U cur s.proc s.log) :
    Fronts front F U cur (d.finishTest s).state.proc (d.finishTest s).state.log := by
  rcases finishTest_cases (d := d) s with ⟨htest, -⟩ | ⟨r, -, -, htest⟩
  · rw [htest]
    exact h
  · rw [htest]
    split <;> exact h.reap r

section Iteration

variable (hI : Inv d W σ k s) (hB : Before W law σ k) (hW : WellFormed W)
include hI hB hW

theorem Inv.ended_none (h : ∀ r, s.running = some r → (entry s.proc r).exec ≠ 0) :
    (jobsOf W).ended σ k = none := by
  cases hend : (jobsOf W).ended σ k with
  | none => rfl
  | some r =>
      obtain ⟨hprev, hle⟩ := Jobs.ended_eq_some.mp hend
      have hr := (hB.prev_released hprev).1
      have hlt := (hI.tracks.exec_ne_zero_iff hW hr (hB.served_le r)).mp
        (h r (hI.running.trans hprev))
      omega

theorem Inv.ended_some {r : ℕ} (hr : s.running = some r) (hexec : (entry s.proc r).exec = 0) :
    (jobsOf W).ended σ k = some r := by
  have hprev := hI.running.symm.trans hr
  refine Jobs.ended_eq_some.mpr ⟨hprev, ?_⟩
  by_contra hlt
  exact (hI.tracks.exec_ne_zero_iff hW (hB.prev_released hprev).1 (hB.served_le r)).mpr
    (by omega) hexec

/-- The finish test waits for the process that has ended. -/
theorem Children.finishTest (h : Children (Arrived W k) (endings W σ k) s.proc s.log) :
    Children (Arrived W k) (endings W σ (k + 1)) (d.finishTest s).state.proc
      (d.finishTest s).state.log := by
  rcases finishTest_cases (d := d) s with ⟨htest, hkeep⟩ | ⟨r, hr, hexec, htest⟩
  · rw [htest, endings_succ, hI.ended_none hB hW hkeep]
    simpa using h
  · have hreap := h.reap (d := d) r
    rw [endings_succ, hI.ended_some hB hW hr hexec, htest]
    rw [hI.now] at hreap
    split <;> exact hreap

end Iteration

section Iteration

variable (hd : d.Obeys os W law) (hc : d.Calls os front) (hW : WellFormed W)
  (hI : Inv d W σ k s) (hB : Before W law σ k)

theorem arrived_succ {t : State} (hT : Tested d W σ k t) (hW : WellFormed W) (i : ℕ) :
    Arrived W (k + 1) i ↔
      Arrived W k i ∨ i < t.proc.length ∧ (entry t.proc i).ready = t.now := by
  simp only [Arrived, hT.tracks.length_eq, hT.now]
  constructor
  · rintro ⟨hi, hlt⟩
    rcases Nat.lt_succ_iff_lt_or_eq.mp hlt with hlt | heq
    · exact Or.inl ⟨hi, hlt⟩
    · exact Or.inr ⟨hi, (hT.tracks.ready_iff hW hi k).mpr heq⟩
  · rintro (⟨hi, hlt⟩ | ⟨hi, hr⟩)
    · exact ⟨hi, by omega⟩
    · exact ⟨hi, Nat.lt_succ_of_le ((hT.tracks.ready_iff hW hi k).mp hr).le⟩

theorem Arrived.waits {t : State} (hT : Tested d W σ k t) (hW : WellFormed W) {i : ℕ}
    (hi : Arrived W k i) : i < t.proc.length ∧ (entry t.proc i).ready ≠ t.now := by
  refine ⟨by rw [hT.tracks.length_eq]; exact hi.1, fun hr => ?_⟩
  rw [hT.now, hT.tracks.ready_iff hW hi.1] at hr
  exact absurd hi.2 (by omega)

theorem Children.iff (h : Children F E proc log) {F' : ℕ → Prop} (hF : ∀ i, F' i ↔ F i) :
    Children F' E proc log := by
  rw [funext fun i => propext (hF i)]
  exact h

theorem Fronts.iff (h : Fronts front F U cur proc log) {F' : ℕ → Prop}
    (hF : ∀ i, F' i ↔ F i) : Fronts front F' U cur proc log := by
  rw [funext fun i => propext (hF i)]
  exact h

include hd hc hW hI hB

/-- The children just before the unit of time. -/
theorem Children.beforeUnit (h : Children (Arrived W k) (endings W σ k) s.proc s.log)
    (harr : d.arrive os s = .next s') {s'' : State} (hswitch : d.contextSwitch os s' = .next s'') :
    Children (Arrived W (k + 1)) (endings W σ (k + 1)) s''.proc s''.log := by
  obtain ⟨s₁, htest, hfork⟩ := Outcome.bind_eq_next.mp harr
  rcases finishTest_spec hW hI hB with ⟨-, t, ht, hT⟩ | ⟨-, t, ht, -⟩
  · rw [htest, Outcome.next.injEq] at ht
    subst ht
    have htested := h.finishTest hI hB hW
    rw [htest, Outcome.state_next] at htested
    obtain ⟨proc, log, hscan, rfl⟩ := forkReady_eq_next.mp hfork
    have hforked := htested.fork (hd.spawns _) hscan (fun i hi => hi.waits hT hW) hc
      (endings_arrived hB)
    exact ((hforked.iff (arrived_succ hT hW)).switch (s := { s₁ with proc := proc, log := log })
      hc hswitch).1
  · rw [htest] at ht
    cases ht

/-- The policies just before the unit of time, provided `proc[-1].pid` is not
    the pid of a child. -/
theorem Fronts.beforeUnit (hchild : Children (Arrived W k) (endings W σ k) s.proc s.log)
    (hpid : ∀ log, os.fork log ≠ os.outside) (hout : os.outside ∉ s.log.forked)
    (h : Fronts front (Arrived W k) (Unfinished W σ k) ((jobsOf W).current σ k) s.proc s.log)
    (harr : d.arrive os s = .next s') {s'' : State} (hswitch : d.contextSwitch os s' = .next s'') :
    Fronts front (Arrived W (k + 1)) (Unfinished W σ k) s''.running s''.proc s''.log ∧
      os.outside ∉ s''.log.forked := by
  obtain ⟨s₁, htest, hfork⟩ := Outcome.bind_eq_next.mp harr
  rcases finishTest_spec hW hI hB with ⟨-, t, ht, hT⟩ | ⟨-, t, ht, -⟩
  · rw [htest, Outcome.next.injEq] at ht
    subst ht
    have htested := hchild.finishTest hI hB hW
    have hfronts := h.finishTest (d := d)
    have hout₁ : os.outside ∉ (d.finishTest s).state.log.forked := by
      rw [finishTest_forked]
      exact hout
    rw [htest, Outcome.state_next] at htested hfronts hout₁
    rw [← hT.running] at hfronts
    obtain ⟨s₂, hfork₂, hC⟩ := forkReady_spec hd hW hT hB
    rw [hfork, Outcome.next.injEq] at hfork₂
    subst hfork₂
    obtain ⟨proc, log, hscan, rfl⟩ := forkReady_eq_next.mp hfork
    have hcur : ∀ r, s₁.running = some r → Arrived W k r := fun r hr =>
      hB.prev_released (Jobs.current_eq_some.mp (hT.running.symm.trans hr)).1
    have hF := fun i (hi : Arrived W k i) => hi.waits hT hW
    have hchild₂ := (htested.fork (hd.spawns _) hscan hF hc (endings_arrived hB)).iff
      (arrived_succ hT hW)
    have hfronts₂ := (hfronts.fork (hd.spawns _) hscan hF hc htested hcur).iff (arrived_succ hT hW)
    have hout₂ := outside_fork hscan hc hpid hout₁
    refine ⟨Fronts.switch (s := { s₁ with proc := proc, log := log }) hc hchild₂ hout₂ hfronts₂
      (fun r hr => ?_) (fun i hi => ?_) hswitch, ?_⟩
    · exact ⟨(hcur r hr).1, Nat.lt_succ_of_lt (hcur r hr).2⟩
    · obtain ⟨o, hnext, hadm⟩ := hd.next σ k _ hC
      rw [hi, Option.some.injEq] at hnext
      have hel := hadm.eligible i hnext.symm
      exact ⟨mem_jobsOf.mp hel.mem, Nat.lt_succ_of_le hel.released⟩
    · rw [(hchild₂.switch (s := { s₁ with proc := proc, log := log }) hc hswitch).2]
      exact hout₂
  · rw [htest] at ht
    cases ht

end Iteration

/-! ## Whole runs -/

section Runs

variable {o : Outcome State} (hd : d.Obeys os W law) (hc : d.Calls os front)
  (hW : WellFormed W) (hlog : Bare log) (ho : o = .next (State.initial W log))
include hd hc hW hlog ho

/-- The children at the top of every iteration. -/
theorem children_of_next : ∀ k s, Outcome.run (d.step os) o k = .next s →
    Children (Arrived W k) (endings W (followed d os o) k) s.proc s.log := by
  refine Outcome.run_invariant (fun s hs => ?_) fun k s s' hs _ hstep h => ?_
  · obtain rfl := Outcome.next.inj (ho.symm.trans hs)
    refine ⟨fun pid => ?_, fun i j hi => absurd hi.2 (Nat.not_lt_zero _), hlog.reaped⟩
    simp [State.initial, hlog.forked, Arrived]
  · obtain ⟨hI, hB⟩ := inv_of_next hd hW hlog.marks ho hs
    obtain ⟨s₁, s₂, s₃, htest, hfork, hswitch, rfl⟩ := step_cases hstep
    exact (h.beforeUnit hd hc hW hI hB (Outcome.bind_eq_next.mpr ⟨s₁, htest, hfork⟩) hswitch).unit

/-- The children when the loop is left. -/
theorem children_of_done {s' : State} (hs : Outcome.run (d.step os) o k = .next s)
    (hdone : d.step os s = .done s') :
    Children (Arrived W k) (endings W (followed d os o) (k + 1)) s'.proc s'.log := by
  obtain ⟨hI, hB⟩ := inv_of_next hd hW hlog.marks ho hs
  have h := (children_of_next hd hc hW hlog ho k s hs).finishTest hI hB hW
  rw [step_eq_done.mp hdone] at h
  exact h

/-- The policies at the top of every iteration. -/
theorem fronts_of_next (hpid : ∀ log, os.fork log ≠ os.outside) :
    ∀ k s, Outcome.run (d.step os) o k = .next s →
      Fronts front (Arrived W k) (Unfinished W (followed d os o) k)
        ((jobsOf W).current (followed d os o) k) s.proc s.log ∧ os.outside ∉ s.log.forked := by
  refine Outcome.run_invariant (fun s hs => ?_) fun k s s' hs _ hstep ⟨h, hout⟩ => ?_
  · obtain rfl := Outcome.next.inj (ho.symm.trans hs)
    refine ⟨⟨fun r hr => ?_, fun i hi => absurd hi.2 (Nat.not_lt_zero _)⟩, ?_⟩
    · rw [Jobs.current_zero] at hr
      cases hr
    · simp [State.initial, hlog.forked]
  · obtain ⟨hI, hB⟩ := inv_of_next hd hW hlog.marks ho hs
    obtain ⟨s₁, s₂, s₃, htest, hfork, hswitch, rfl⟩ := step_cases hstep
    have harr := Outcome.bind_eq_next.mpr ⟨s₁, htest, hfork⟩
    obtain ⟨h₃, hout₃⟩ := Fronts.beforeUnit hd hc hW hI hB
      (children_of_next hd hc hW hlog ho k s hs) hpid hout h harr hswitch
    have hrun := followed_eq hs harr hswitch
    have hunit := h₃.unit
    refine ⟨⟨fun r hr => hunit.front r ?_, fun i hi hU hne => hunit.back i hi ?_ ?_⟩, ?_⟩
    · rw [← hrun]
      exact (Jobs.current_eq_some.mp hr).1
    · exact lt_of_le_of_lt (Schedule.served_le_succ _ k i) hU
    -- the one that had the unit and is unfinished is the one carried over
    · rw [← hrun]
      exact fun he => hne (Jobs.current_succ he hU)
    · rw [State.unit]
      cases s₃.running with
      | none => exact hout₃
      | some r => simpa using hout₃

/-- The loop is left at the end of the work, all children waited for. -/
theorem children_at_end : ∃ s, Outcome.run (d.step os) o (makespan W + 1) = .done s ∧
    Children (Arrived W (makespan W)) (endings W (followed d os o) (makespan W + 1)) s.proc
      s.log := by
  obtain ⟨T, hC, hnext, s, hs, -⟩ := run_spec hd hW hlog.marks ho
  obtain rfl := hC.eq_makespan hW
  obtain ⟨t, ht, -⟩ := hnext _ (Nat.le_refl _)
  refine ⟨s, hs, children_of_done hd hc hW hlog ho ht ?_⟩
  rw [← Outcome.run_succ_of_next ht, hs]

end Runs

end Loop

/-! ## The calls of the three files -/

/-- The fork of the three files blocks the new child. -/
theorem spawn_calls {os : Os} {spawn : ℕ → ℕ → Process → Log → Except Log (Process × Log)}
    (heq : ∀ now i p log, spawn now i p log = .ok ({ p with pid := os.fork log },
      log ++ [(now, .call (.fork (os.fork log))), (now, .call (.setaffinity (os.fork log) 1)),
        (now, .call (.setscheduler (os.fork log) .idle 0)), (now, .mark (.fork i))])) :
    ∀ now i p log p' log', spawn now i p log = .ok (p', log') →
      p'.pid = os.fork log ∧ log'.forked = log.forked ++ [p'.pid] ∧ log'.reaped = log.reaped ∧
        ∀ pid, log'.policy pid = if p'.pid = pid then some .idle else log.policy pid := by
  intro now i p log p' log' h
  rw [heq, Except.ok.injEq, Prod.mk.injEq] at h
  obtain ⟨rfl, rfl⟩ := h
  refine ⟨rfl, by simp, by simp, fun pid => ?_⟩
  by_cases hpid : os.fork log = pid <;> simp [hpid]

/-- The context switch of FIFO and RR: `proc_wakeup` of the next process, then
    `proc_block` of the one that was running. -/
theorem wakeup_policy (now : ℕ) (next running pid : Int) :
    (procBlock now running (procWakeup now next [])).policy pid =
      if running = pid then some .idle else if next = pid then some .other else none := by
  by_cases h : running = pid <;> simp [procBlock, procWakeup, schedSetscheduler, h]

section Disciplines

variable {os : Os} (hos : os.Healthy)
include hos

theorem Fifo.spawn_eq (now i : ℕ) (p : Process) (log : Log) : Fifo.spawn os now i p log =
    .ok ({ p with pid := os.fork log },
      log ++ [(now, .call (.fork (os.fork log))), (now, .call (.setaffinity (os.fork log) 1)),
        (now, .call (.setscheduler (os.fork log) .idle 0)), (now, .mark (.fork i))]) := by
  have hexec := procExec_ok hos now
    (fun pid log hpid => Fifo.procAssignCpu_ok hos hpid now 1 log) log
  simp only [Fifo.spawn, hexec, procBlock, schedSetscheduler, List.append_assoc,
    List.cons_append, List.nil_append]

theorem Rr.spawn_eq (now i : ℕ) (p : Process) (log : Log) : Rr.spawn os now i p log =
    .ok ({ p with pid := os.fork log },
      log ++ [(now, .call (.fork (os.fork log))), (now, .call (.setaffinity (os.fork log) 1)),
        (now, .call (.setscheduler (os.fork log) .idle 0)), (now, .mark (.fork i))]) := by
  have hexec := procExec_ok hos now
    (fun pid log hpid => Psjf.procAssignCpu_ok hos hpid (by omega) now log) log
  simp only [Rr.spawn, hexec, procBlock, schedSetscheduler, List.append_assoc,
    List.cons_append, List.nil_append]

theorem Sjf.spawn_eq (now i : ℕ) (p : Process) (log : Log) : Sjf.spawn os now i p log =
    .ok ({ p with pid := os.fork log },
      log ++ [(now, .call (.fork (os.fork log))), (now, .call (.setaffinity (os.fork log) 1)),
        (now, .call (.setscheduler (os.fork log) .idle 0)), (now, .mark (.fork i))]) := by
  simp only [Sjf.spawn, Psjf.procAssignCpu_ok hos (hos.fork_pos log) (show 1 ≤ 128 by omega),
    schedSetscheduler, List.append_assoc, List.cons_append, List.nil_append]

theorem Fifo.calls : Fifo.discipline.Calls os .other where
  spawn := spawn_calls (Fifo.spawn_eq hos)
  quiet s i := by simp [Fifo.discipline, procBlock, procWakeup, schedSetscheduler]
  promotes s i hne := by
    rw [Fifo.discipline, wakeup_policy, if_neg hne.symm, if_pos rfl]
  demotes s r i hr _ _ := by
    rw [Fifo.discipline, wakeup_policy, Loop.State.runningPid, hr, if_pos rfl]
  spares s i pid hi hr := by
    rw [Fifo.discipline, wakeup_policy, if_neg hr.symm, if_neg hi.symm]

theorem Rr.calls : Rr.discipline.Calls os .other where
  spawn := spawn_calls (Rr.spawn_eq hos)
  quiet s i := by simp [Rr.discipline, procBlock, procWakeup, schedSetscheduler]
  promotes s i hne := by
    rw [Rr.discipline, wakeup_policy, if_neg hne.symm, if_pos rfl]
  demotes s r i hr _ _ := by
    rw [Rr.discipline, wakeup_policy, Loop.State.runningPid, hr, if_pos rfl]
  spares s i pid hi hr := by
    rw [Rr.discipline, wakeup_policy, if_neg hr.symm, if_neg hi.symm]

theorem Sjf.calls : Sjf.discipline.Calls os .fifo where
  spawn := spawn_calls (Sjf.spawn_eq hos)
  quiet s i := by simp [Sjf.discipline, schedSetscheduler]
  promotes s i _ := by simp [Sjf.discipline, schedSetscheduler]
  demotes s r i hr hnext hir := by
    -- a running process is not replaced
    simp only [Sjf.discipline, Sjf.next, hr, Option.some.injEq] at hnext
    exact absurd hnext.symm hir
  spares s i pid hi _ := by simp [Sjf.discipline, schedSetscheduler, hi.symm]

/-- FIFO, SJF and RR are left with the calls their finishes made. -/
theorem Policy.exists_children {P : Policy} {q : Qsort} {W : List Process} (hP : P ≠ psjf)
    (hW : WellFormed W) : ∃ s, P.run os q W (makespan W + 1) = .done s ∧
      Loop.Children (Loop.Arrived (P.table q W) (makespan W))
        (endings (P.table q W) (P.ran os q W) (makespan W + 1)) s.proc s.log := by
  have hT := P.table_wellFormed (q := q) hW
  have hend := makespan_perm hW (P.table_perm q W)
  cases P with
  | fifo =>
      obtain ⟨log, hlog, hstart⟩ := Fifo.start_ok hos q W
      obtain ⟨s, hs, hC⟩ := Loop.children_at_end
        (Fifo.obeys hos hT (Policy.table_sorted hW (by decide))) (Fifo.calls hos) hT hlog hstart
      rw [hend, ← Policy.ran_fifo hos hW] at hC
      rw [hend] at hs
      exact ⟨s.snapshot, congrArg (Outcome.map Loop.State.snapshot) hs, hC⟩
  | sjf =>
      obtain ⟨log, hlog, hstart⟩ := Sjf.start_ok hos q W
      obtain ⟨s, hs, hC⟩ := Loop.children_at_end (Sjf.obeys hos hT) (Sjf.calls hos) hT hlog hstart
      rw [hend, ← Policy.ran_sjf hos hW] at hC
      rw [hend] at hs
      exact ⟨s.snapshot, congrArg (Outcome.map Loop.State.snapshot) hs, hC⟩
  | rr =>
      obtain ⟨log, hlog, hstart⟩ := Rr.start_ok hos q W
      obtain ⟨s, hs, hC⟩ := Loop.children_at_end (Rr.obeys hos hT) (Rr.calls hos) hT hlog hstart
      rw [hend, ← Policy.ran_rr hos hW] at hC
      rw [hend] at hs
      exact ⟨s.snapshot, congrArg (Outcome.map Loop.State.snapshot) hs, hC⟩
  | psjf => exact absurd rfl hP

end Disciplines

end ProcSched
