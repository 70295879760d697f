/-
  ProcSched.Props.WorkConserving

  The four schedulers are work-conserving: they idle only when nobody is ready,
  have executed the same number of units before every clock value, and end with
  the same clock, the makespan of the workload.
-/

import ProcSched.Refine.Policy

namespace ProcSched

/-- Units executed before clock `t`: original minus current `exec`, over all
    processes. -/
def Policy.unitsBefore (P : Policy) (os : Os) (q : Qsort) (W : List Process) (t : ℕ) : Int :=
  ∑ i ∈ Finset.range W.length,
    ((entry (P.table q W) i).exec - (entry (P.run os q W t).state.proc i).exec)

section

variable {P : Policy} {os : Os} {q : Qsort} {W : List Process}

theorem jobsOf_arrived_perm {V : List Process} (h : V.Perm W) :
    (jobsOf V).arrived = (jobsOf W).arrived := by
  funext t
  rw [jobsOf_arrived, jobsOf_arrived, Jobs.arrivedOf_perm (pairsOf_perm h)]

/-- The units executed depend on the arrivals only. -/
theorem Policy.unitsBefore_eq (hos : os.Healthy) (hW : WellFormed W) (hz : P.Fresh W) (t : ℕ) :
    P.unitsBefore os q W t = (Jobs.drain (jobsOf W).arrived t : ℕ) := by
  have hd := P.describes (q := q) hos hW hz
  have hlen := P.length_table q W
  rw [← jobsOf_arrived_perm (P.table_perm q W), ← Jobs.progress_eq_drain hd.legal hd.busy,
    Jobs.progress, Nat.cast_sum, Policy.unitsBefore]
  apply Finset.sum_congr (by rw [← hlen]; rfl)
  intro i hi
  rw [(hd.tracks t).exec_eq i (mem_jobsOf.mp hi)]
  omega

/-- An iteration in which nobody is run finds nobody to run. -/
theorem Policy.idle_only_if (hos : os.Healthy) (hW : WellFormed W) (hz : P.Fresh W) {k : ℕ}
    (hsame : ∀ i < W.length, (entry (P.run os q W (k + 1)).state.proc i).exec
      = (entry (P.run os q W k).state.proc i).exec) {i : ℕ} (hi : i < W.length)
    (hready : (entry (P.table q W) i).ready ≤ k) :
    (entry (P.run os q W k).state.proc i).exec = 0 := by
  have hd := P.describes (q := q) hos hW hz
  have hT := P.table_wellFormed (q := q) hW
  have hlen := P.length_table q W
  rw [hd.exec_eq_zero_iff hT (by omega)]
  by_contra hlt
  have hrel := hT.release_eq (i := i) (by omega)
  have hel : (jobsOf (P.table q W)).Eligible (P.ran os q W) k i :=
    ⟨mem_jobsOf.mpr (by omega), by omega, by omega⟩
  -- somebody is run, and his counter changes
  obtain ⟨j, hj⟩ := Option.ne_none_iff_exists'.mp (hd.busy k i hel)
  have hj' := mem_jobsOf.mp (hd.legal k j hj).mem
  have h := hsame j (by omega)
  rw [(hd.tracks (k + 1)).exec_eq j hj', (hd.tracks k).exec_eq j hj',
    Schedule.served_succ_self hj] at h
  omega

end

/-- Each scheduler has executed as many units before every clock value as any
    other one, idles only when no ready process is unfinished, and leaves its
    loop when the clock has reached the makespan of any ready order `V`. -/
theorem Policy.work_conserving (P : Policy) (os : Os) (q : Qsort) (W V : List Process)
    (hos : os.Healthy) (hW : WellFormed W) (hz : P.Fresh W) (hV : V.Perm W)
    (hs : V.Pairwise fun a b => a.ready ≤ b.ready) :
    (∀ (P' : Policy) (os' : Os) (q' : Qsort), os'.Healthy → P'.Fresh W →
      ∀ t, P.unitsBefore os q W t = P'.unitsBefore os' q' W t) ∧
    (∀ k s, P.run os q W k = .next s →
      (∀ i < W.length, (entry (P.run os q W (k + 1)).state.proc i).exec = (entry s.proc i).exec) →
      ∀ i < W.length, (entry (P.table q W) i).ready ≤ s.clock → (entry s.proc i).exec = 0) ∧
    ∃ k s, P.run os q W k = .done s ∧ s.clock = Jobs.finishTime (pairsOf V) := by
  have hd := P.describes (q := q) hos hW hz
  refine ⟨fun P' os' q' hos' hz' t => ?_, fun k s hk hsame i hi hready => ?_, ?_⟩
  · rw [Policy.unitsBefore_eq hos hW hz, Policy.unitsBefore_eq hos' hW hz']
  · have hclock : s.clock = k := (hd.shows hk).clock
    have hstate : (P.run os q W k).state = s := by rw [hk, Outcome.state_next]
    rw [← hstate] at hsame ⊢
    exact Policy.idle_only_if hos hW hz hsame hi (by rw [← hclock]; exact hready)
  · obtain ⟨s, hk, hclose⟩ := hd.done (makespan W + 1) (Nat.lt_succ_self _)
    exact ⟨_, s, hk, by rw [hclose.clock, finishTime_eq_makespan hW hV hs]⟩

theorem Policy.work_conserving_readme :
    (∀ (P' : Policy) (os' : Os) (q' : Qsort), os'.Healthy → P'.Fresh readmeWorkload →
      ∀ t, psjf.unitsBefore Os.counting Qsort.insertion readmeWorkload t
        = P'.unitsBefore os' q' readmeWorkload t) ∧
    (∀ k s, psjf.run Os.counting Qsort.insertion readmeWorkload k = .next s →
      (∀ i < readmeWorkload.length,
        (entry (psjf.run Os.counting Qsort.insertion readmeWorkload (k + 1)).state.proc i).exec
          = (entry s.proc i).exec) →
      ∀ i < readmeWorkload.length,
        (entry (psjf.table Qsort.insertion readmeWorkload) i).ready ≤ s.clock →
          (entry s.proc i).exec = 0) ∧
    ∃ k s, psjf.run Os.counting Qsort.insertion readmeWorkload k = .done s ∧
      s.clock = Jobs.finishTime (pairsOf readmeWorkload) :=
  Policy.work_conserving psjf Os.counting Qsort.insertion readmeWorkload readmeWorkload
    Os.counting_healthy (by decide) (fun _ => by decide) (List.Perm.refl _) (by decide)

end ProcSched
