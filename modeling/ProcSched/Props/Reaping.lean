/-
  ProcSched.Props.Reaping

  FIFO, SJF and RR wait for every child, in the order in which the counters
  reached 0.  PSJF makes no `waitpid` call at all: its children may still be
  running when main has returned.
-/

import ProcSched.Props.Priority
import ProcSched.Refine.Calls

namespace ProcSched

/-- When the scheduler is left, `calls` are its `waitpid` calls, as clocks with
    table indices: every pid `fork` returned is passed to one of them, after the
    counter of the process reached 0, in the order in which the counters did. -/
def Policy.ReapsAll (P : Policy) (os : Os) (q : Qsort) (W : List Process) : Prop :=
  ∃ k s, ∃ calls : List (ℕ × ℕ), P.run os q W k = .done s ∧
    s.log.reaped = calls.map (fun e => (e.1, (entry s.proc e.2).pid)) ∧
    (∀ pid ∈ s.log.forked, (s.log.reaped.map Prod.snd).count pid = 1) ∧
    (∀ e ∈ calls, e.2 < W.length ∧ ∃ t ≤ e.1, P.CompletesAt os q W e.2 t) ∧
    calls.Pairwise fun e e' => ∀ t t', P.CompletesAt os q W e.2 t →
      P.CompletesAt os q W e'.2 t' → t < t'

section

variable {P : Policy} {os : Os} {q : Qsort} {W : List Process}

/-- Three of the four wait for all their children. -/
theorem Policy.reapsAll_of_ne (hos : os.Healthy) (hW : WellFormed W) (hP : P ≠ psjf) :
    P.ReapsAll os q W := by
  have hT := P.table_wellFormed (q := q) hW
  have hd := P.describes (q := q) hos hW fun h => absurd h hP
  obtain ⟨s, hs, hC⟩ := Policy.exists_children hos (q := q) hP hW
  have hcomplete : ∀ e ∈ endings (P.table q W) (P.ran os q W) (makespan W + 1),
      e.2 < W.length ∧ P.CompletesAt os q W e.2 e.1 := by
    rintro ⟨c, i⟩ he
    obtain ⟨-, hend⟩ := mem_endings.mp he
    obtain ⟨u, rfl, hrun⟩ := Jobs.run_of_ended hend
    have hi : i < (P.table q W).length := mem_jobsOf.mp (hd.legal u i hrun).mem
    refine ⟨by rw [← P.length_table q W]; exact hi, fun k => ?_⟩
    rw [hd.exec_eq_zero_iff hT hi, le_iff_of_ended hd.legal hend]
  refine ⟨makespan W + 1, s, _, hs, hC.reaped, fun pid hpid => ?_, fun e he => ?_, ?_⟩
  · obtain ⟨i, hi, rfl⟩ := (hC.mem_iff pid).mp hpid
    have hreaped : s.log.reaped.map Prod.snd =
        ((endings (P.table q W) (P.ran os q W) (makespan W + 1)).map Prod.snd).map
          fun j => (entry s.proc j).pid := by
      rw [hC.reaped, List.map_map, List.map_map]
      rfl
    -- a process that has ended was forked before the end, so the pids of the calls differ
    have harrived : ∀ j ∈ (endings (P.table q W) (P.ran os q W) (makespan W + 1)).map Prod.snd,
        Loop.Arrived (P.table q W) (makespan W) j := by
      intro j hj
      obtain ⟨⟨c, j'⟩, he, rfl⟩ := List.mem_map.mp hj
      obtain ⟨hc, hend⟩ := mem_endings.mp he
      obtain ⟨u, rfl, hrun⟩ := Jobs.run_of_ended hend
      have hel := hd.legal u j' hrun
      exact ⟨mem_jobsOf.mp hel.mem, lt_of_le_of_lt hel.released (by omega)⟩
    rw [hreaped]
    refine List.count_eq_one_of_mem ?_ (List.mem_map_of_mem (f := fun j => (entry s.proc j).pid) ?_)
    · exact (endings_nodup hd.legal _).map_on fun x hx y hy heq =>
        hC.inj x y (harrived x hx) (harrived y hy) heq
    · obtain ⟨c, hc, hend⟩ := Jobs.exists_ended (hT.jobs_length_pos hi.1)
        (hd.finished i (mem_jobsOf.mpr hi.1))
      exact List.mem_map.mpr ⟨(c, i), mem_endings.mpr ⟨Nat.lt_succ_of_le hc, hend⟩, rfl⟩
  · exact ⟨(hcomplete e he).1, e.1, Nat.le_refl _, (hcomplete e he).2⟩
  · refine (endings_sorted _ _ _).imp_of_mem fun {e e'} he he' hlt t t' ht ht' => ?_
    -- a counter reaches 0 once
    have hunique : ∀ x ∈ endings (P.table q W) (P.ran os q W) (makespan W + 1), ∀ u,
        P.CompletesAt os q W x.2 u → u = x.1 := fun x hx u hu => by
      have hx' := (hcomplete x hx).2
      exact Nat.le_antisymm ((hu _).mpr ((hx' _).mp (Nat.le_refl _)))
        ((hx' _).mpr ((hu _).mp (Nat.le_refl _)))
    rw [hunique e he t ht, hunique e' he' t' ht']
    exact hlt

namespace Psjf

variable {k : ℕ} {s : State}

theorem update_reaped (i : ℕ) (s : State) : (update i s).log.reaped = s.log.reaped := by
  rw [update]
  split <;> simp

/-- `PSJF` never calls `waitpid`. -/
theorem reaped_of_next (hos : os.Healthy) :
    ∀ k s, psjf os W k = .next s → s.log.reaped = [] := by
  refine Outcome.run_invariant (fun s hs => ?_) fun k s s' _ _ hstep h => ?_
  · rw [start, procAssignCpu_ok hos hos.getpid_pos (Nat.zero_le 128)] at hs
    rw [← Outcome.next.inj hs]
    simp
  · rw [step] at hstep
    split at hstep
    · cases hstep
    · obtain ⟨s₁, hfork, hnext⟩ := Outcome.bind_eq_next.mp hstep
      have h₁ : s₁.log.reaped = [] := by
        rw [forkReady] at hfork
        split at hfork
        · cases hfork
        · next proc log hscan =>
          rw [← Outcome.next.inj hfork]
          refine forkScan_keeps (P := fun l => l.reaped = []) (fun i p l p' l' hsp hl => ?_) hscan h
          rw [spawn_eq hos, Except.ok.injEq, Prod.mk.injEq] at hsp
          rw [← hsp.2]
          simp [hl]
      rw [← Outcome.next.inj hnext, State.tick_log, select]
      split
      · obtain ⟨-, -, -, -, -, hreaped, -⟩ := dispatch_spec (findMinIndex s₁.proc) s₁
        rw [update_reaped, hreaped, h₁]
      · exact h₁

/-- So it never waits for the children it has forked. -/
theorem not_reapsAll (hos : os.Healthy) (hW : WellFormed W) (hz : ZeroWaiting W) :
    ¬ Policy.psjf.ReapsAll os q W := by
  rintro ⟨k, s, calls, hs, -, hcount, -⟩
  obtain ⟨T, hC, hnext, s₁, hdone, hI⟩ := run_spec hos hW hz
  obtain ⟨t, ht, hI', hB⟩ := hnext T (Nat.le_refl T)
  -- the loop is left with the state at its top
  have hsame : t = s₁ := by
    have hstep := (Outcome.run_succ_of_next ht).symm.trans hdone
    rcases step_spec hos hW hI' hB with ⟨-, u, -, -, hgo, -⟩ | ⟨-, hstop⟩
    · rw [hgo] at hstep
      cases hstep
    · rw [hstop] at hstep
      exact Outcome.done.inj hstep
  have hfinal : s = s₁.snapshot := by
    obtain ⟨s₀, hs₀, rfl⟩ := Outcome.map_eq_done.mp hs
    rw [Outcome.run_done_unique hs₀ hdone]
  -- the first process has been forked by then
  have hfirst : (entry s₁.proc 0).pid ∈ s₁.log.forked := by
    refine hI.pid_mem 0 hW.length_pos ?_
    by_contra hle
    have hzero := hC.legal.served_eq_zero (Nat.le_of_not_lt hle)
    have hdone := hC.finished 0 (mem_jobsOf.mpr hW.length_pos)
    have := hW.jobs_length_pos hW.length_pos
    omega
  have hone := hcount (entry s₁.proc 0).pid (by rw [hfinal]; exact hfirst)
  have hreaped : s.log.reaped = [] := by
    rw [hfinal]
    show s₁.log.reaped = []
    rw [← hsame]
    exact reaped_of_next hos T t ht
  rw [hreaped] at hone
  simp at hone

end Psjf

end

/-- A scheduler waits for all the children it has forked exactly if it is not
    PSJF. -/
theorem reapsAll_iff (P : Policy) (os : Os) (q : Qsort) (W : List Process) (hos : os.Healthy)
    (hW : WellFormed W) (hz : P.Fresh W) : P.ReapsAll os q W ↔ P ≠ .psjf := by
  refine ⟨fun h hP => ?_, Policy.reapsAll_of_ne hos hW⟩
  subst hP
  exact Psjf.not_reapsAll hos hW (hz rfl) h

theorem reapsAll_iff_readme :
    Policy.rr.ReapsAll Os.counting Qsort.insertion readmeWorkload ↔ Policy.rr ≠ .psjf :=
  reapsAll_iff .rr Os.counting Qsort.insertion readmeWorkload Os.counting_healthy (by decide)
    fun h => by cases h

/-- On the test of README.md PSJF leaves four children behind. -/
theorem readme_not_reaped :
    Os.counting.Healthy ∧ WellFormed readmeWorkload ∧ ZeroWaiting readmeWorkload ∧
      ¬ Policy.psjf.ReapsAll Os.counting Qsort.insertion readmeWorkload :=
  ⟨Os.counting_healthy, by decide, by decide,
    Psjf.not_reapsAll Os.counting_healthy (by decide) (by decide)⟩

end ProcSched
