/-
  ProcSched.Refine.Accesses

  Where the table is accessed.  The loops over the table stay within it for any
  table; `running` is within it whenever it is not -1, which leaves the accesses
  of the context switch (`accesses_cases`).
-/

import ProcSched.Model.Accesses
import ProcSched.Refine.Calls

namespace ProcSched

/-- `proc[i]` is an entry of the table. -/
def Within (proc : List Process) (i : Int) : Prop := 0 ≤ i ∧ i < proc.length

theorem within_natCast {proc : List Process} {i : ℕ} (h : i < proc.length) :
    Within proc (i : Int) :=
  ⟨Int.natCast_nonneg i, Int.ofNat_lt.mpr h⟩

variable {proc : List Process} {i : Int}

theorem Within.of_length {proc' : List Process} (h : Within proc i)
    (hlen : proc.length = proc'.length) : Within proc' i :=
  ⟨h.1, hlen ▸ h.2⟩

/-! ## The loops over the table -/

theorem within_range {n : ℕ} (hn : n ≤ proc.length)
    (h : i ∈ (List.range n).map fun j : ℕ => (j : Int)) : Within proc i := by
  obtain ⟨j, hj, rfl⟩ := List.mem_map.mp h
  exact within_natCast ((List.mem_range.mp hj).trans_le hn)

theorem within_allAccesses (h : i ∈ allAccesses proc) : Within proc i :=
  within_range (Nat.le_refl _) h

theorem within_forkScan {spawn : ℕ → Process → Log → Except Log (Process × Log)} {now j : ℕ}
    {ps : List Process} {log : Log} (hlen : j + ps.length = proc.length)
    (h : i ∈ forkScanAccesses spawn now j ps log) : Within proc i := by
  induction ps generalizing j log with
  | nil => simp [forkScanAccesses] at h
  | cons p ps ih =>
      rw [List.length_cons] at hlen
      rw [forkScanAccesses, List.mem_cons] at h
      rcases h with rfl | h
      · exact within_natCast (by omega)
      · split at h
        · simp at h
        · exact ih (by omega) h

/-- The selection loops read below the table's length and find an index there. -/
theorem scanAccesses_spec (key : Process → Int) (proc : List Process) :
    (∀ i ∈ (scanAccesses key proc).1, Within proc i) ∧
      ∀ r, (scanAccesses key proc).2 = some r → r < proc.length := by
  rw [scanAccesses]
  refine List.foldlRecOn (motive := fun acc : List Int × Option ℕ =>
    (∀ i ∈ acc.1, Within proc i) ∧ ∀ r, acc.2 = some r → r < proc.length) _ _ ?_ ?_
  · simp
  · rintro ⟨reads, ret⟩ ⟨hreads, hret⟩ j hj
    have hj : j < proc.length := List.mem_range.mp hj
    have hmore : ∀ new : List Int, (∀ i ∈ new, Within proc i) →
        ∀ i ∈ reads ++ new, Within proc i := fun new hnew i hi =>
      (List.mem_append.mp hi).elim (hreads i) (hnew i)
    split
    · refine ⟨hmore _ ?_, hret⟩
      simp [within_natCast hj]
    · cases ret with
      | none =>
          refine ⟨hmore _ ?_, fun r hr => Option.some.inj hr ▸ hj⟩
          simp [within_natCast hj]
      | some r₀ =>
          have hr₀ := hret r₀ rfl
          refine ⟨hmore _ ?_, fun r hr => ?_⟩
          · simp [within_natCast hj, within_natCast hr₀]
          · simp only at hr
            split at hr <;> · cases hr; assumption

theorem Rr.within_first (h : i ∈ firstAccesses proc) : Within proc i := by
  rw [firstAccesses] at h
  split at h
  · exact within_allAccesses h
  · next r hr =>
    have hr := List.mem_range.mp (List.mem_of_find?_eq_some hr)
    exact within_range hr h

theorem Rr.within_rotate {fuel ret : ℕ} (hret : ret < proc.length)
    (h : i ∈ rotateAccesses proc fuel ret) : Within proc i := by
  induction fuel generalizing ret with
  | zero => simp [rotateAccesses] at h
  | succ fuel ih =>
      rw [rotateAccesses, List.mem_cons] at h
      rcases h with rfl | h
      · exact within_natCast hret
      · split at h
        · exact ih (Nat.mod_lt _ (by omega)) h
        · simp at h

theorem Psjf.within_ready (h : i ∈ readyAccesses proc) : Within proc i := by
  rw [readyAccesses] at h
  split at h
  · exact within_allAccesses h
  · next r hr =>
    obtain ⟨hr, -⟩ := List.findIdx?_eq_some_iff_getElem.mp hr
    exact within_range hr h

/-! ## The choice -/

/-- With `running` at -1 or in the table, the choice reads within the table. -/
def Loop.Accesses.Sound (a : Loop.Accesses) : Prop :=
  ∀ s : Loop.State, (∀ r, s.running = some r → r < s.proc.length) →
    ∀ i ∈ a.next s, Within s.proc i

theorem Fifo.accesses_sound : Fifo.accesses.Sound := by
  intro s _ i hi
  simp only [Fifo.accesses] at hi
  split at hi
  · simp at hi
  · exact (scanAccesses_spec _ _).1 i hi

theorem Sjf.accesses_sound : Sjf.accesses.Sound := by
  intro s _ i hi
  simp only [Sjf.accesses] at hi
  split at hi
  · simp at hi
  · exact (scanAccesses_spec _ _).1 i hi

theorem Rr.accesses_sound : Rr.accesses.Sound := by
  intro s hrun i hi
  simp only [Rr.accesses] at hi
  split at hi
  · exact within_first hi
  · next r hr =>
    have hlt := hrun r hr
    split at hi
    · exact within_rotate (Nat.mod_lt _ (by omega)) hi
    · simp at hi

namespace Loop

variable {d : Discipline} {a : Accesses} {os : Os} {W : List Process} {law : ChoiceLaw}
  {σ : Schedule ℕ} {k : ℕ} {s s' : State}

theorem within_running (h : ∀ r, s.running = some r → r < s.proc.length)
    (hi : i ∈ s.runningAccesses) : Within s.proc i := by
  obtain ⟨r, hr, rfl⟩ := List.mem_map.mp hi
  exact within_natCast (h r (Option.mem_toList.mp hr))

/-- An iteration leaves the table only in the context switch. -/
theorem accesses_cases (hd : d.Obeys os W law) (hW : WellFormed W) (ha : a.Sound)
    (hI : Inv d W σ k s) (hB : Before W law σ k) (hi : i ∈ d.accesses a os s) :
    Within W i ∨ ∃ s' next, d.arrive os s = .next s' ∧ AtChoice d W σ k s' ∧
      d.next s' = some (some next) ∧ next < W.length ∧ s'.running ≠ some next ∧
      i ∈ a.switch s' next := by
  have hrun : ∀ r, s.running = some r → r < s.proc.length := fun r hr => by
    rw [hI.tracks.length_eq]
    exact (hB.prev_released (hI.running.symm.trans hr)).1
  rw [Discipline.accesses, List.mem_append] at hi
  rcases hi with hi | hi
  · exact Or.inl ((within_running hrun hi).of_length hI.tracks.length_eq)
  obtain ⟨s₁, htest, hi⟩ := Outcome.mem_whenNext.mp hi
  rcases finishTest_spec hW hI hB with ⟨-, t, ht, hT⟩ | ⟨-, t, ht, -⟩
  · rw [htest, Outcome.next.injEq] at ht
    subst ht
    rcases List.mem_append.mp hi with hi | hi
    · exact Or.inl ((within_forkScan (Nat.zero_add _) hi).of_length hT.tracks.length_eq)
    obtain ⟨s₂, hfork, hi⟩ := Outcome.mem_whenNext.mp hi
    obtain ⟨t, ht, hC⟩ := forkReady_spec hd hW hT hB
    rw [hfork, Outcome.next.injEq] at ht
    subst ht
    have harr : d.arrive os s = .next s₂ := Outcome.bind_eq_next.mpr ⟨s₁, htest, hfork⟩
    have hlen := hC.tracks.length_eq
    have hin : ∀ j, (jobsOf W).Eligible σ k j → j < s₂.proc.length := fun j hj => by
      rw [hlen]
      exact mem_jobsOf.mp hj.mem
    obtain ⟨o, s₃, hswitch, hadm, hrunning, hproc, -⟩ := contextSwitch_spec hd hC
    rw [Discipline.chooseAccesses, hswitch, List.mem_append, List.mem_append,
      Outcome.whenNext_next] at hi
    rcases hi with (hi | hi) | hi
    · exact Or.inl ((ha s₂ (fun r hr => hin r (hC.carried r hr)) i hi).of_length hlen)
    · obtain ⟨o', hnext, hadm'⟩ := hd.next σ k s₂ hC
      rw [hnext] at hi
      cases o' with
      | none => simp at hi
      | some next =>
          by_cases hsame : s₂.running = some next
          · simp [hsame] at hi
          · simp only [if_neg hsame] at hi
            have hlt := mem_jobsOf.mp (hadm'.eligible next rfl).mem
            exact Or.inr ⟨s₂, next, harr, hC, hnext, hlt, hsame, hi⟩
    · refine Or.inl ((within_running (fun r hr => ?_) hi).of_length (by rw [hproc, hlen]))
      rw [hproc]
      exact hin r (hadm.eligible r (hrunning.symm.trans hr))
  · rw [htest] at ht
    cases ht

/-- A context switch that reads `proc[running]` with nobody running reads `proc[-1]`. -/
theorem outside_mem_accesses (ha : ∀ s next, indexValue s.running ∈ a.switch s next)
    (harr : d.arrive os s = .next s') {next : ℕ} (hnext : d.next s' = some (some next))
    (hrun : s'.running = none) : -1 ∈ d.accesses a os s := by
  obtain ⟨s₁, htest, hfork⟩ := Outcome.bind_eq_next.mp harr
  have hmem := ha s' next
  rw [hrun] at hmem
  rw [Discipline.accesses, htest, Outcome.whenNext_next, hfork, Outcome.whenNext_next,
    Discipline.chooseAccesses, hnext]
  simp only [hrun, reduceCtorEq, if_false, List.mem_append]
  exact Or.inr (Or.inr (Or.inl (Or.inr hmem)))

/-- Every run has a dispatch with nobody running: its first one. -/
theorem exists_first_dispatch (hd : d.Obeys os W law) (hW : WellFormed W) {log : Log}
    (hlog : log.marks = []) {o : Outcome State} (ho : o = .next (State.initial W log)) :
    ∃ k s s' next, Outcome.run (d.step os) o k = .next s ∧ d.arrive os s = .next s' ∧
      d.next s' = some (some next) ∧ s'.running = none := by
  obtain ⟨T, hC, hreach, -⟩ := run_spec hd hW hlog ho
  -- some unit is given to somebody, so there is a first such unit
  obtain ⟨c, hc, hend⟩ := Jobs.exists_ended (hW.jobs_length_pos hW.length_pos)
    (hC.finished 0 (mem_jobsOf.mpr hW.length_pos))
  obtain ⟨u, rfl, hrun⟩ := Jobs.run_of_ended hend
  have hex : ∃ t, followed d os o t ≠ none := ⟨u, by rw [hrun]; exact Option.some_ne_none _⟩
  have hfirst := Nat.find_spec hex
  have hbefore := fun m (hm : m < Nat.find hex) => not_not.mp (Nat.find_min hex hm)
  have hle : Nat.find hex ≤ u := Nat.find_min' hex (by rw [hrun]; exact Option.some_ne_none _)
  generalize Nat.find hex = t at hfirst hbefore hle
  -- nobody has had a unit before the first one
  have hprev : (followed d os o).prev t = none := by
    cases t with
    | zero => rfl
    | succ m => exact hbefore m (Nat.lt_succ_self m)
  obtain ⟨s, hs, hI, hB⟩ := hreach t (by omega)
  rcases arrive_spec hd hW hI hB with ⟨-, s', harr, hA⟩ | ⟨hfin, -⟩
  · have hidle : s'.running = none := by
      rw [hA.running, Jobs.current_eq_none]
      intro i hi
      rw [hprev] at hi
      cases hi
    obtain ⟨-, s'', hswitch, -⟩ := contextSwitch_spec hd hA
    have hgo := followed_eq hs harr hswitch
    rcases contextSwitch_cases hswitch with ⟨-, rfl⟩ | ⟨i, -, hi, -⟩ | ⟨i, hnext, -, -⟩
    · exact absurd (hgo.trans hidle) hfirst
    · rw [hidle] at hi
      cases hi
    · exact ⟨t, s, s', i, hs, harr, hnext, hidle⟩
  · exact absurd hfin (hC.unfinished t (by omega))

/-- So a file whose context switch reads `proc[running]` leaves the table. -/
theorem exists_outside {a : Accesses} (ha : ∀ s next, indexValue s.running ∈ a.switch s next)
    (hd : d.Obeys os W law) (hW : WellFormed W) {log : Log} (hlog : log.marks = [])
    {o : Outcome State} (ho : o = .next (State.initial W log)) :
    ∃ k s, Outcome.run (d.step os) o k = .next s ∧ -1 ∈ d.accesses a os s := by
  obtain ⟨k, s, s', next, hs, harr, hnext, hrun⟩ := exists_first_dispatch hd hW hlog ho
  exact ⟨k, s, hs, outside_mem_accesses ha harr hnext hrun⟩

end Loop
end ProcSched
