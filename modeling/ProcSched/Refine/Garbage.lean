/-
  ProcSched.Refine.Garbage

  PSJF on a table whose `waiting` and `pid` fields were never initialised, next
  to the run on a clean table with the same records.  A process that has not
  arrived but whose `waiting` field happens to be 1 takes part in the selection.
  As long as an eligible process precedes every such entry, the two runs go in
  step (`run_agrees`).
-/

import ProcSched.Refine.Psjf

namespace ProcSched
namespace Psjf

variable {os : Os} {W V : List Process} {σ : Schedule ℕ} {now k i : ℕ} {s t : State}
  {proc proc' : List Process}

/-- `proc'` is the table `proc`, but the entries not ready before `now` still
    hold what was in `V`. -/
structure Stained (V : List Process) (now : ℕ) (proc proc' : List Process) : Prop where
  length_eq : proc'.length = proc.length
  record_eq : ∀ i < proc.length, (entry proc' i).record = (entry proc i).record
  forked : ∀ i < proc.length, (entry proc i).ready < now → entry proc' i = entry proc i
  garbage : ∀ i < proc.length, (now : Int) ≤ (entry proc i).ready →
    (entry proc' i).waiting = (entry V i).waiting

/-- The states agree in everything but the entries not ready before `now`. -/
def Agrees (V : List Process) (now : ℕ) (s t : State) : Prop :=
  ∃ proc', t = { s with proc := proc' } ∧ Stained V now s.proc proc'

namespace Stained

variable (h : Stained V now proc proc')
include h

theorem ready_eq (hi : i < proc.length) : (entry proc' i).ready = (entry proc i).ready :=
  congrArg Record.ready (h.record_eq i hi)

theorem exec_eq (hi : i < proc.length) : (entry proc' i).exec = (entry proc i).exec :=
  congrArg Record.exec (h.record_eq i hi)

/-- A change to an arrived entry, the same on both sides. -/
theorem modify (hi : (entry proc i).ready < now) {f : Process → Process}
    (hf : ∀ p, (f p).ready = p.ready)
    (hrec : ∀ p p', p.record = p'.record → (f p).record = (f p').record) :
    Stained V now (proc.modify i f) (proc'.modify i f) where
  length_eq := by rw [List.length_modify, List.length_modify, h.length_eq]
  record_eq j hj := by
    rw [List.length_modify] at hj
    rw [entry_modify hj, entry_modify (by rw [h.length_eq]; exact hj)]
    split
    · exact hrec _ _ (h.record_eq j hj)
    · exact h.record_eq j hj
  forked j hj hlt := by
    rw [List.length_modify] at hj
    rw [entry_modify hj] at hlt ⊢
    rw [entry_modify (by rw [h.length_eq]; exact hj)]
    by_cases hji : j = i
    · subst hji
      rw [if_pos rfl, if_pos rfl, h.forked j hj hi]
    · rw [if_neg hji] at hlt ⊢
      rw [if_neg hji]
      exact h.forked j hj hlt
  garbage j hj hle := by
    rw [List.length_modify] at hj
    rw [entry_modify hj] at hle
    rw [entry_modify (by rw [h.length_eq]; exact hj)]
    by_cases hji : j = i
    · subst hji
      rw [if_pos rfl, hf] at hle
      omega
    · rw [if_neg hji] at hle ⊢
      exact h.garbage j hj hle

end Stained

/-! ## The fork scan -/

/-- Both runs fork the same children, with the same pids. -/
theorem forkReady_agrees (h : Agrees V s.time s t) {s₁ : State}
    (hs : forkReady os s = .next s₁) :
    ∃ t₁, forkReady os t = .next t₁ ∧ s₁.time = s.time ∧ Agrees V (s.time + 1) s₁ t₁ := by
  obtain ⟨proc', rfl, hst⟩ := h
  have hspawn : ∀ i p p' log x, spawn os s.time i p log = .ok x →
      ∃ pid, x.1 = { p with pid := pid, waiting := 1 } ∧
        spawn os s.time i p' log = .ok ({ p' with pid := pid, waiting := 1 }, x.2) := by
    intro i p p' log x hx
    simp only [spawn] at hx ⊢
    cases hr : processReady os s.time log with
    | error log => rw [hr] at hx; cases hx
    | ok y =>
        rw [hr] at hx
        cases hx
        exact ⟨y.1, rfl, rfl⟩
  rw [forkReady] at hs
  split at hs
  · cases hs
  · next proc log hscan =>
    cases hs
    obtain ⟨qs', pids, hscan', hlen, hlen', hspec⟩ := forkScan_pair hspawn hst.length_eq
      (fun k hk => hst.ready_eq hk) hscan
    have hready : ∀ j < s.proc.length, (entry proc j).ready = (entry s.proc j).ready := by
      intro j hj
      rw [(hspec j hj).1]
      split <;> rfl
    have hst' : Stained V (s.time + 1) proc qs' := by
      refine ⟨by rw [hlen', hlen, hst.length_eq], fun j hj => ?_, fun j hj hlt => ?_,
        fun j hj hle => ?_⟩ <;> rw [hlen] at hj
      · obtain ⟨h₁, h₂⟩ := hspec j hj
        rw [h₁, h₂]
        split <;> exact hst.record_eq j hj
      · have hrec := hst.record_eq j hj
        rw [hready j hj] at hlt
        obtain ⟨h₁, h₂⟩ := hspec j hj
        rw [h₁, h₂]
        by_cases hnow : (entry s.proc j).ready = s.time
        · rw [if_pos hnow, if_pos hnow]
          rw [Process.record, Process.record, Record.mk.injEq] at hrec
          simp only [hrec]
        · rw [if_neg hnow, if_neg hnow]
          exact hst.forked j hj (by omega)
      · rw [hready j hj] at hle
        rw [(hspec j hj).2, if_neg (by omega)]
        exact hst.garbage j hj (by omega)
    exact ⟨{ s with proc := qs', log := log }, by rw [forkReady, hscan'], rfl, qs', rfl, hst'⟩

/-! ## The selection -/

/-- What PSJF takes for a waiting process: an eligible one, or one that has not
    arrived and is flagged by what was in memory. -/
def Waits (W V : List Process) (σ : Schedule ℕ) (k i : ℕ) : Prop :=
  (jobsOf W).Eligible σ k i ∨
    i < W.length ∧ k < (jobsOf W).release i ∧ (entry V i).waiting = 1

/-- `j` is selected rather than `i`. -/
def Precedes (W : List Process) (σ : Schedule ℕ) (k j i : ℕ) : Prop :=
  (jobsOf W).left σ k j < (jobsOf W).left σ k i ∨
    (jobsOf W).left σ k j = (jobsOf W).left σ k i ∧ j < i

/-- The selection on a stained table. -/
theorem AtChoice.stained_choice (hC : AtChoice W σ k s) (hW : WellFormed W)
    (hst : Stained V (k + 1) s.proc proc') :
    (choice { s with proc := proc' } = none → ∀ i, ¬ Waits W V σ k i) ∧
      ∀ i, choice { s with proc := proc' } = some i → Waits W V σ k i ∧
        ∀ j, Waits W V σ k j → ¬ Precedes W σ k j i := by
  have hlen := hC.tracks.length_eq
  have hlen' : proc'.length = W.length := hst.length_eq.trans hlen
  have hready : ∀ i < W.length, (entry s.proc i).ready = ((jobsOf W).release i : Int) :=
    fun i hi => (hC.tracks.ready_eq i hi).trans (hW.release_eq hi).symm
  have hexec : ∀ i < W.length, (entry proc' i).exec = ((jobsOf W).left σ k i : ℕ) :=
    fun i hi => by
      rw [hst.exec_eq (by omega), hC.tracks.exec_eq_left hW hi (hC.served_le i hi)]
  have hmax : BelowMax proc' := by
    rcases hC.belowMax hW with hone | hmax
    · exact Or.inl (hst.length_eq.trans hone)
    · exact Or.inr fun i hi => by
        rw [hst.exec_eq (by omega)]
        exact hmax i (by omega)
  have hwait : ∀ i < W.length, (entry proc' i).waiting = 1 ↔ Waits W V σ k i := by
    intro i hi
    have hr := hready i hi
    rcases Nat.lt_or_ge k ((jobsOf W).release i) with hlt | hge
    · rw [hst.garbage i (by omega) (by omega)]
      refine ⟨fun hw => Or.inr ⟨hi, hlt, hw⟩, fun hw => ?_⟩
      rcases hw with hel | ⟨-, -, hw⟩
      · have := hel.released
        omega
      · exact hw
    · rw [hst.forked i (by omega) (by omega), hC.waiting i hi]
      exact ⟨Or.inl, fun hw => hw.resolve_right fun h => by omega⟩
  have hmem : ∀ i, Waits W V σ k i → i < W.length := by
    rintro i (hel | ⟨hi, -⟩)
    · exact mem_jobsOf.mp hel.mem
    · exact hi
  obtain ⟨hnone, hsome⟩ := choice_least (s := { s with proc := proc' }) hmax
  rw [hlen'] at hnone hsome
  refine ⟨fun hno i hi => hnone hno i (hmem i hi) ((hwait i (hmem i hi)).mpr hi), fun i hi => ?_⟩
  obtain ⟨hi', hw, hleast⟩ := hsome i hi
  refine ⟨(hwait i hi').mp hw, fun j hj hprec => ?_⟩
  have hle := hleast j (hmem j hj) ((hwait j (hmem j hj)).mpr hj)
  rw [hexec i hi', hexec j (hmem j hj)] at hle
  rcases hprec with h | ⟨h, h'⟩ <;> omega

/-- Every flagged process that has not arrived is preceded by an eligible one. -/
def Covers (W V : List Process) (σ : Schedule ℕ) (k : ℕ) : Prop :=
  ∀ i < W.length, k < (jobsOf W).release i → (entry V i).waiting = 1 →
    ∃ j, (jobsOf W).Eligible σ k j ∧ Precedes W σ k j i

/-- Then the flagged processes change nothing. -/
theorem AtChoice.choice_agrees (hC : AtChoice W σ k s) (hW : WellFormed W)
    (hst : Stained V (k + 1) s.proc proc') (hcov : Covers W V σ k) :
    choice { s with proc := proc' } = choice s := by
  obtain ⟨hnone, hsome⟩ := hC.stained_choice hW hst
  obtain ⟨-, hclean, hlaw⟩ := hC.choice_spec hW
  cases hch : choice { s with proc := proc' } with
  | none =>
      cases hch' : choice s with
      | none => rfl
      | some i => exact absurd (Or.inl (hclean i hch')) (hnone hch i)
  | some m =>
      obtain ⟨hm, hleast⟩ := hsome m hch
      -- the selected entry has arrived, since a flagged one would be preceded
      have hel : (jobsOf W).Eligible σ k m := by
        rcases hm with hel | ⟨hm, hlt, hw⟩
        · exact hel
        · obtain ⟨j, hj, hprec⟩ := hcov m hm hlt hw
          exact absurd hprec (hleast j (Or.inl hj))
      cases hch' : choice s with
      | none => exact absurd hel ((hC.choice_spec hW).1 hch' m)
      | some i =>
          have hle := hlaw i m hch' hel
          have hnot := hleast i (Or.inl (hclean i hch'))
          rw [Precedes, not_or, not_and] at hnot
          congr 1
          omega

theorem select_eq (s : State) :
    select s = (choice s).elim s fun i => update i (dispatch i s) := by
  rw [select, choice]
  split <;> rfl

/-- The unit of an arrived process changes both states alike. -/
theorem Agrees.serve (h : Agrees V now s t) (hi : i < s.proc.length)
    (hlt : (entry s.proc i).ready < now) :
    Agrees V now (update i (dispatch i s)) (update i (dispatch i t)) := by
  obtain ⟨proc', rfl, hst⟩ := h
  have hentry := hst.forked i hi hlt
  have hdispatch : dispatch i { s with proc := proc' } = { dispatch i s with proc := proc' } := by
    simp only [dispatch, hentry]
    by_cases hrun : (entry s.proc i).pid = s.preRunning
    · simp [hrun]
    · simp [hrun]
  have hproc := (dispatch_spec i s).1
  rw [hdispatch]
  have hst' : Stained V now (dispatch i s).proc proc' := by
    rw [hproc]
    exact hst
  rw [← hproc] at hi hlt hentry
  generalize dispatch i s = s' at hi hlt hentry hst'
  have hunit := hst'.modify hlt (f := fun p => { p with exec := p.exec - 1 }) (fun _ => rfl)
    fun p p' hrec => by
      rw [Process.record, Process.record, Record.mk.injEq] at hrec
      simp only [Process.record, hrec]
  have hexec : (entry (proc'.modify i fun p => { p with exec := p.exec - 1 }) i).exec =
      (entry (s'.proc.modify i fun p => { p with exec := p.exec - 1 }) i).exec := by
    rw [entry_modify hi, entry_modify (by rw [hst'.length_eq]; exact hi), if_pos rfl, if_pos rfl,
      hentry]
  simp only [update, hexec]
  by_cases hlast : (entry (s'.proc.modify i fun p => { p with exec := p.exec - 1 }) i).exec = 0
  · simp only [hlast, if_true]
    refine ⟨_, rfl, hunit.modify ?_ (fun _ => rfl) fun p p' hrec => hrec⟩
    rw [entry_modify hi, if_pos rfl]
    exact hlt
  · simp only [hlast, if_false]
    exact ⟨_, rfl, hunit⟩

/-! ## Runs -/

/-- One iteration in step. -/
theorem step_agrees (hos : os.Healthy) (hW : WellFormed W) (hI : Inv W σ k s)
    (hB : Before W (srptLaw W) σ k) (hcov : Covers W V σ k) (h : Agrees V s.time s t) :
    Outcome.Rel (fun s t => Agrees V s.time s t) (step os s) (step os t) := by
  have hlen : t.proc.length = s.proc.length ∧ t.finished = s.finished := by
    obtain ⟨proc', rfl, hst⟩ := h
    exact ⟨hst.length_eq, rfl⟩
  rcases step_spec hos hW hI hB with ⟨hnot, s₁, hfork, hC, hstep, -⟩ | ⟨hfin, hstep⟩
  · obtain ⟨t₁, hfork', htime, hA⟩ := forkReady_agrees h hfork
    have hfin : t.finished ≠ t.proc.length := by
      rw [hlen.1, hlen.2]
      exact fun he => hnot (hI.finished_iff.mp he)
    rw [hstep, step, if_neg hfin, hfork', Outcome.bind_next]
    refine .next ?_
    have hk : s.time = k := hI.time
    obtain ⟨proc', rfl, hst⟩ := hA
    rw [hk] at hst
    have hch := hC.choice_agrees hW hst hcov
    rw [select_eq, select_eq, hch]
    cases hsel : choice s₁ with
    | none =>
        rw [Option.elim_none, Option.elim_none]
        exact ⟨proc', rfl, by rw [State.tick_time, hC.time]; exact hst⟩
    | some i =>
        have hel := (hC.choice_spec hW).2.1 i hsel
        have hi := mem_jobsOf.mp hel.mem
        have hready := hC.tracks.ready_eq i hi
        have hrel := hW.release_eq hi
        have hreleased := hel.released
        obtain ⟨proc'', heq, hst'⟩ := Agrees.serve (t := { s₁ with proc := proc' })
          ⟨proc', rfl, hst⟩ (by rw [hC.tracks.length_eq]; exact hi)
          (show (entry s₁.proc i).ready < ((k + 1 : ℕ) : Int) by omega)
        rw [Option.elim_some, Option.elim_some, heq]
        refine ⟨proc'', rfl, ?_⟩
        have htick : (update i (dispatch i s₁)).tick.time = k + 1 := by
          have hproc := (dispatch_spec i s₁).1
          rw [State.tick_time, (update_spec (by rw [hproc, hC.tracks.length_eq]; exact hi)).2.2.1,
            (dispatch_spec i s₁).2.1, hC.time]
        rw [htick]
        exact hst'
  · rw [hstep, step, if_pos (by
      rw [hlen.1, hlen.2]
      exact hI.finished_iff.mpr hfin)]
    exact .done h

/-- A process that waits and that no other waiting one precedes is selected,
    arrived or not. -/
theorem step_selects (hos : os.Healthy) (hW : WellFormed W) (hI : Inv W σ k s)
    (hB : Before W (srptLaw W) σ k) (h : Agrees V s.time s t) (hi : Waits W V σ k i)
    (hleast : ∀ j, Waits W V σ k j → j ≠ i → Precedes W σ k i j) :
    ∃ t', step os t = .next t' ∧ (k, Mark.select i) ∈ t'.log.marks := by
  have hmem : i < W.length ∧ σ.served k i < (jobsOf W).length i := by
    rcases hi with hel | ⟨hi, hlt, -⟩
    · exact ⟨mem_jobsOf.mp hel.mem, hel.unfinished⟩
    · refine ⟨hi, ?_⟩
      rw [hB.served_eq_zero hlt.le]
      exact hW.jobs_length_pos hi
  rcases step_spec hos hW hI hB with ⟨hnot, s₁, hfork, hC, -, -⟩ | ⟨hfin, -⟩
  · obtain ⟨t₁, hfork', -, hA⟩ := forkReady_agrees h hfork
    have hfin : t.finished ≠ t.proc.length := by
      obtain ⟨proc', rfl, hst⟩ := h
      rw [hst.length_eq]
      exact fun he => hnot (hI.finished_iff.mp he)
    have hk : s.time = k := hI.time
    rw [hk] at hA
    obtain ⟨proc', rfl, hst⟩ := hA
    obtain ⟨hnone, hsome⟩ := hC.stained_choice hW hst
    have hchoice : choice { s₁ with proc := proc' } = some i := by
      cases hch : choice { s₁ with proc := proc' } with
      | none => exact absurd hi (hnone hch i)
      | some m =>
          obtain ⟨hm, hm'⟩ := hsome m hch
          by_cases hmi : m = i
          · rw [hmi]
          · exact absurd (hleast m hm hmi) (hm' i hi)
    have hlen : i < (dispatch i { s₁ with proc := proc' }).proc.length := by
      rw [(dispatch_spec i { s₁ with proc := proc' }).1, hst.length_eq, hC.tracks.length_eq]
      exact hmem.1
    obtain ⟨-, -, -, -, -, -, hmarks⟩ := update_spec hlen
    obtain ⟨-, -, -, -, -, -, hmarks'⟩ := dispatch_spec i { s₁ with proc := proc' }
    refine ⟨(select { s₁ with proc := proc' }).tick, ?_, ?_⟩
    · rw [step, if_neg hfin, hfork', Outcome.bind_next]
    · rw [State.tick_log, select_eq, hchoice, Option.elim_some, hmarks, hmarks', hC.time]
      simp
  · have := hfin i (mem_jobsOf.mpr hmem.1)
    omega

/-- The runs go in step as long as the flagged processes are covered. -/
theorem run_agrees (hos : os.Healthy) (hW : WellFormed W) (hz : ZeroWaiting W)
    (hV : V.map Process.record = W.map Process.record) (m : ℕ)
    (hcov : ∀ k < m, Covers W V (followed os (start os W)) k) :
    ∀ k ≤ m, Outcome.Rel (fun s t => Agrees V s.time s t) (psjf os W k) (psjf os V k) := by
  have hlen : V.length = W.length := by
    have := congrArg List.length hV
    rwa [List.length_map, List.length_map] at this
  have hstained : Stained V 0 W V := by
    refine ⟨hlen, fun i hi => ?_, fun i hi hlt => ?_, fun i hi _ => rfl⟩
    · exact record_eq_of_map hV i
    · have := hW.ready_nonneg _ (entry_mem hi)
      omega
  refine Outcome.run_simulation ?_ m fun k s t hk hs ht h => ?_
  · rw [start, start, procAssignCpu_ok hos hos.getpid_pos (Nat.zero_le 128)]
    exact .next ⟨V, rfl, hstained⟩
  · obtain ⟨hI, hB⟩ := inv_of_next hos hW hz hs
    exact step_agrees hos hW hI hB (hcov k hk) h

end Psjf
end ProcSched
