/-
  ProcSched.Props.Interleaving

  The schedulers with their children, the kernel giving the steps of all of them
  any order.  The children can hold a scheduler up in `waitpid`, but not change
  what it does: every interleaving has the same number of steps and ends alike.
  FIFO, SJF and RR come to their end only after all children have; PSJF can be at
  its end before any child has begun.
-/

import ProcSched.Props.Reaping
import ProcSched.Refine.Forks

namespace ProcSched

open ForkJoin (Path Tally forks waits work)

/-- The steps of a scheduler and its children: `n + 2` for each iteration, one
    for leaving the loop, and the units and the exit of every child. -/
def stepCount (W : List Process) : ℕ :=
  makespan W * (W.length + 2) + 1 + (W.map fun p => p.exec.toNat + 1).sum

namespace Policy

variable {P : Policy} {os : Os} {q : Qsort} {W : List Process} {n : ℕ} {w : P.World}

theorem run_done_unique (P : Policy) {os : Os} {q : Qsort} {W : List Process} {k m : ℕ}
    {s t : Snapshot} (h : P.run os q W k = .done s) (h' : P.run os q W m = .done t) : s = t := by
  rw [P.run_eq] at h h'
  obtain ⟨u, hu, rfl⟩ := Outcome.map_eq_done.mp h
  obtain ⟨v, hv, rfl⟩ := Outcome.map_eq_done.mp h'
  rw [Outcome.run_done_unique hu hv]

section End

variable {acts : List (ForkJoin.Action Int Child)} {s : P.State} (hos : os.Healthy)
  (hW : WellFormed W) (hz : P.Fresh W)
  (hpath : Path ((P.body os).system os) (P.start os q W).launch acts (.ended (.done s)))
  (hrun : P.run os q W (makespan W + 1) = .done (P.snapshot s))
include hos hW hz hpath hrun

/-- The children of a whole run are those of the table. -/
theorem forks_perm : ((forks acts).map Prod.snd).Perm (W.map Process.child) := by
  obtain ⟨-, hlog⟩ := (P.runs (q := q) hos hW hz).path_at hos hpath
  have hperm := forkedOf_perm (q := q) hos hW hz hrun
  rw [← P.log_snapshot os] at hperm
  rw [hlog.copies]
  refine (hperm.map _).trans ?_
  have htable : (List.range W.length).map (fun i => (entry (P.table q W) i).child) =
      (P.table q W).map Process.child := by
    rw [← P.length_table q W]
    refine List.ext_getElem (by simp) fun i hi hi' => ?_
    simp only [List.getElem_map, List.getElem_range]
    rw [entry_eq_getElem]
  rw [htable]
  exact (P.table_perm q W).map _

theorem work_forks : work Child.left (forks acts) = (W.map fun p => p.exec.toNat + 1).sum := by
  have hsum := ((forks_perm hos hW hz hpath hrun).map Child.left).sum_eq
  rw [List.map_map, List.map_map] at hsum
  refine hsum.trans (congrArg List.sum (List.map_congr_left fun p _ => ?_))
  simp [Process.child, Child.left]

omit hrun in
/-- The end of an interleaving is the end of the run. -/
theorem eq_of_ended {o : Outcome P.State} (h : P.Interleaving os q W n w)
    (hend : w.parent = .ended o) : o = .done s ∧
      Tally ((P.body os).system os) (fun c => (c.name, c.exec)) Child.left
        (P.start os q W).launch acts n w := by
  obtain ⟨acts', ht⟩ := h.tally ((P.runs (q := q) hos hW hz).sane hos) (Child.measured _ os)
  have hp := ht.path
  rw [hend] at hp
  have hlen : acts'.length = acts.length :=
    Nat.le_antisymm (hpath.prefix_of_end rfl hp).length_le (hp.prefix_of_end rfl hpath).length_le
  obtain ⟨rfl, heq⟩ := hp.unique hpath hlen
  exact ⟨Point.ended.inj heq, ht⟩

end End

/-- Every child of an interleaving counts to its `exec`. -/
theorem Interleaving.counts (hos : os.Healthy) (hW : WellFormed W) (hz : P.Fresh W)
    (h : P.Interleaving os q W n w) : ∀ c ∈ w.children ++ w.reaped, c.2.Counts :=
  (P.runs hos hW hz).counts hos (P.table_wellFormed hW) h

/-- The children at the end of the parent are those of the table. -/
theorem Interleaving.children_perm (hos : os.Healthy) (hW : WellFormed W) (hz : P.Fresh W)
    (h : P.Interleaving os q W n w) {o : Outcome P.State} (hend : w.parent = .ended o) :
    ((w.children ++ w.reaped).map fun c => (c.2.name, c.2.exec)).Perm
      (W.map fun p => (p.name, p.exec)) := by
  obtain ⟨acts, s, hpath, -, hrun⟩ := exists_path_end (q := q) hos hW hz
  obtain ⟨-, ht⟩ := eq_of_ended hos hW hz hpath h hend
  have hkeys := ht.keys.map Prod.snd
  rw [List.map_map, List.map_map] at hkeys
  have hnames := (forks_perm hos hW hz hpath hrun).map fun c => (c.name, c.exec)
  rw [List.map_map, List.map_map] at hnames
  exact hkeys.trans hnames

/-- Under FIFO, SJF and RR no child is left when the scheduler has ended. -/
theorem Interleaving.children_eq_nil (hos : os.Healthy) (hW : WellFormed W) (hP : P ≠ psjf)
    (h : P.Interleaving os q W n w) {o : Outcome P.State} (hend : w.parent = .ended o) :
    w.children = [] := by
  have hz : P.Fresh W := fun h => absurd h hP
  have hR := P.runs (q := q) hos hW hz
  obtain ⟨acts, s, hpath, -, hrun⟩ := exists_path_end (q := q) hos hW hz
  obtain ⟨rfl, -⟩ := eq_of_ended hos hW hz hpath h hend
  obtain ⟨k, s', calls, hs', -, hcount, -⟩ := reapsAll_of_ne (q := q) hos hW hP
  obtain rfl : s' = P.snapshot s := P.run_done_unique hs' hrun
  rw [List.eq_nil_iff_forall_not_mem]
  intro c hc
  -- each of the children has been waited for
  obtain ⟨hforked, hnot⟩ := (hR.mem_children hos h).mp (List.mem_map_of_mem hc)
  rw [hend] at hforked hnot
  refine hnot (List.count_pos_iff.mp ?_)
  have hone := hcount c.1 (by rw [← P.log_snapshot os]; exact hforked)
  rw [← P.log_snapshot os] at hone
  exact hone.symm ▸ Nat.one_pos

/-- A child that has been waited for has counted all its units and exited. -/
theorem Interleaving.reaped_exited (hos : os.Healthy) (hW : WellFormed W) (hz : P.Fresh W)
    (h : P.Interleaving os q W n w) : ∀ c ∈ w.reaped, c.2.exited = true ∧ c.2.i = c.2.exec := by
  obtain ⟨acts, ht⟩ := h.tally ((P.runs (q := q) hos hW hz).sane hos) (Child.measured _ os)
  intro c hc
  have hexit := Child.step_eq_none.mp (ht.exited c hc)
  exact ⟨hexit, (h.counts hos hW hz c (List.mem_append_right _ hc)).exited hexit⟩

/-- The work of the parent and of its children is `stepCount`. -/
theorem exists_path_stepCount (hos : os.Healthy) (hW : WellFormed W) (hz : P.Fresh W) :
    ∃ acts s, Path ((P.body os).system os) (P.start os q W).launch acts (.ended (.done s)) ∧
      acts.length + work Child.left (forks acts) = stepCount W ∧
      P.run os q W (makespan W + 1) = .done (P.snapshot s) := by
  obtain ⟨acts, s, hpath, hlen, hrun⟩ := exists_path_end (q := q) hos hW hz
  exact ⟨acts, s, hpath, by rw [hlen, work_forks hos hW hz hpath hrun, stepCount], hrun⟩

theorem Interleaving.length_le (hos : os.Healthy) (hW : WellFormed W) (hz : P.Fresh W)
    (h : P.Interleaving os q W n w) : n ≤ stepCount W := by
  obtain ⟨acts, s, hpath, hcount, -⟩ := exists_path_stepCount (q := q) hos hW hz
  rw [← hcount]
  exact ForkJoin.Run.length_le ((P.runs (q := q) hos hW hz).sane hos) (Child.measured _ os)
    hpath rfl h

/-- An interleaving that cannot be continued has made all the steps there are. -/
theorem Interleaving.of_stuck (hos : os.Healthy) (hW : WellFormed W) (hz : P.Fresh W)
    (h : P.Interleaving os q W n w)
    (hno : ¬ ∃ w', ForkJoin.Step ((P.body os).system os) w w') :
    n = stepCount W ∧ (∀ c ∈ w.children, c.2.exited = true ∧ c.2.i = c.2.exec) ∧
      ∃ s, w.parent = .ended (.done s) ∧ P.run os q W (makespan W + 1) = .done (P.snapshot s) := by
  obtain ⟨acts, s, hpath, hcount, hrun⟩ := exists_path_stepCount (q := q) hos hW hz
  obtain ⟨hn, -, hparent, hexit⟩ := h.length_of_stuck ((P.runs (q := q) hos hW hz).sane hos)
    (Child.measured _ os) hpath rfl fun w' hw' => hno ⟨w', hw'⟩
  refine ⟨hn.trans hcount, fun c hc => ?_, s, hparent, hrun⟩
  have hexited := Child.step_eq_none.mp (hexit c hc)
  exact ⟨hexited, (h.counts hos hW hz c (List.mem_append_left _ hc)).exited hexited⟩

theorem Interleaving.exists_step_iff (hos : os.Healthy) (hW : WellFormed W) (hz : P.Fresh W)
    (h : P.Interleaving os q W n w) :
    n < stepCount W ↔ ∃ w', ForkJoin.Step ((P.body os).system os) w w' := by
  constructor
  · intro hlt
    by_contra hno
    exact absurd (h.of_stuck hos hW hz hno).1 (Nat.ne_of_lt hlt)
  · rintro ⟨w', hw'⟩
    have hnext : P.Interleaving os q W (n + 1) w' := ForkJoin.Run.step h hw'
    exact hnext.length_le hos hW hz

theorem exists_interleaving (hos : os.Healthy) (hW : WellFormed W) (hz : P.Fresh W)
    (hn : n ≤ stepCount W) : ∃ w, P.Interleaving os q W n w := by
  induction n with
  | zero => exact ⟨_, ForkJoin.Run.start⟩
  | succ n ih =>
      obtain ⟨w, hw⟩ := ih (Nat.le_of_succ_le hn)
      obtain ⟨w', hw'⟩ := (hw.exists_step_iff hos hW hz).mp hn
      exact ⟨w', ForkJoin.Run.step hw hw'⟩

/-- Some interleaving comes to the end of the parent. -/
theorem exists_interleaving_ended (hos : os.Healthy) (hW : WellFormed W) (hz : P.Fresh W) :
    ∃ n w s, P.Interleaving os q W n w ∧ w.parent = .ended (.done s) := by
  obtain ⟨w, hw⟩ := exists_interleaving (q := q) hos hW hz (Nat.le_refl (stepCount W))
  have hstuck : ¬ ∃ w', ForkJoin.Step ((P.body os).system os) w w' := fun hw' =>
    Nat.lt_irrefl _ ((hw.exists_step_iff hos hW hz).mpr hw')
  obtain ⟨-, -, s, hend, -⟩ := hw.of_stuck hos hW hz hstuck
  exact ⟨_, w, s, hw, hend⟩

end Policy

/-- FIFO, SJF and RR with their children, in any order of their steps.  The
    scheduler goes through the states it goes through alone.  Every `waitpid`
    comes back with a child that has counted all its units and exited.  When the
    scheduler has ended no child is left, and those waited for are the children
    of all the processes of the file. -/
theorem Policy.joins_children (P : Policy) (os : Os) (q : Qsort) (W : List Process)
    (hos : os.Healthy) (hW : WellFormed W) (hP : P ≠ .psjf) (n : ℕ) (w : P.World)
    (h : P.Interleaving os q W n w) :
    (P.body os).At (P.start os q W) w.parent ∧
      w.reaped.map Prod.fst = ((P.body os).logAt w.parent).reaped.map Prod.snd ∧
      (∀ c ∈ w.reaped, c.2.exited = true ∧ c.2.i = c.2.exec) ∧
      ∀ o, w.parent = .ended o → w.children = [] ∧
        (w.reaped.map fun c => (c.2.name, c.2.exec)).Perm (W.map fun p => (p.name, p.exec)) := by
  have hz : P.Fresh W := fun h => absurd h hP
  have hR := P.runs (q := q) hos hW hz
  obtain ⟨acts, ht⟩ := h.tally (hR.sane hos) (Child.measured _ os)
  obtain ⟨hat, hlog⟩ := hR.path_at hos ht.path
  refine ⟨hat, ht.reaped.trans hlog.waits, h.reaped_exited hos hW hz, fun o hend => ?_⟩
  have hnone := h.children_eq_nil hos hW hP hend
  have hperm := h.children_perm hos hW hz hend
  rw [hnone, List.nil_append] at hperm
  exact ⟨hnone, hperm⟩

theorem joins_children_readme : ∃ n w s,
    Policy.rr.Interleaving Os.counting Qsort.insertion readmeWorkload n w ∧
      w.parent = .ended (.done s) ∧ w.children = [] := by
  obtain ⟨n, w, s, h, hend⟩ := Policy.exists_interleaving_ended (P := .rr) (q := .insertion)
    Os.counting_healthy (W := readmeWorkload) (by decide) (fun h => by cases h)
  have hjoins := Policy.joins_children .rr Os.counting Qsort.insertion readmeWorkload
    Os.counting_healthy (by decide) (by decide) n w h
  exact ⟨n, w, s, h, hend, (hjoins.2.2.2 _ hend).1⟩

/-- Every interleaving can be continued until `stepCount` steps have been made,
    and not further.  Then the scheduler has ended as it ends alone and all
    children have exited, whether or not anybody waits for them. -/
theorem interleaving_ends (P : Policy) (os : Os) (q : Qsort) (W : List Process)
    (hos : os.Healthy) (hW : WellFormed W) (hz : P.Fresh W) (n : ℕ) (w : P.World)
    (h : P.Interleaving os q W n w) :
    n ≤ stepCount W ∧
      (n < stepCount W ↔ ∃ w', ForkJoin.Step ((P.body os).system os) w w') ∧
      (n = stepCount W → (∀ c ∈ w.children, c.2.exited = true ∧ c.2.i = c.2.exec) ∧
        ∃ s, w.parent = .ended (.done s) ∧
          P.run os q W (makespan W + 1) = .done (P.snapshot s)) := by
  have hstep := h.exists_step_iff hos hW hz
  refine ⟨h.length_le hos hW hz, hstep, fun hn => ?_⟩
  have hstuck : ¬ ∃ w', ForkJoin.Step ((P.body os).system os) w w' := fun hw' =>
    Nat.ne_of_lt (hstep.mpr hw') hn
  exact (h.of_stuck hos hW hz hstuck).2

/-- The test of README.md under PSJF, to the end. -/
theorem interleaving_ends_readme : ∃ w,
    Policy.psjf.Interleaving Os.counting Qsort.insertion readmeWorkload
        (stepCount readmeWorkload) w ∧
      (∀ c ∈ w.children, c.2.exited = true ∧ c.2.i = c.2.exec) ∧
      ∃ s, w.parent = .ended (.done s) ∧
        Policy.psjf.run Os.counting Qsort.insertion readmeWorkload (makespan readmeWorkload + 1) =
          .done (Policy.psjf.snapshot s) := by
  obtain ⟨w, h⟩ := Policy.exists_interleaving (P := .psjf) (q := Qsort.insertion)
    Os.counting_healthy (W := readmeWorkload) (by decide) (fun _ => by decide) (Nat.le_refl _)
  exact ⟨w, h, (interleaving_ends .psjf Os.counting Qsort.insertion readmeWorkload
    Os.counting_healthy (by decide) (fun _ => by decide) _ w h).2.2 rfl⟩

/-- PSJF never gets a child back from `waitpid`, and it can be at its end before
    any of its children has counted a unit: all of them are then left to
    themselves, still running. -/
theorem psjf_abandons_children (os : Os) (q : Qsort) (W : List Process) (hos : os.Healthy)
    (hW : WellFormed W) (hz : ZeroWaiting W) :
    (∀ n w, Policy.psjf.Interleaving os q W n w → w.reaped = []) ∧
      ∃ n w s, Policy.psjf.Interleaving os q W n w ∧ w.parent = .ended (.done s) ∧
        (w.children.map Prod.snd).Perm (W.map Process.child) := by
  have hfresh : Policy.psjf.Fresh W := fun _ => hz
  have hwaits : ∀ {acts b}, Path ((Policy.psjf.body os).system os)
      (Policy.psjf.start os q W).launch acts b → waits acts = [] :=
    fun h => Body.waits_eq_nil (fun _ => rfl) h
  constructor
  · intro n w h
    obtain ⟨acts, ht⟩ := h.tally ((Policy.psjf.runs (q := q) hos hW hfresh).sane hos)
      (Child.measured _ os)
    rw [← List.map_eq_nil_iff (f := Prod.fst), ht.reaped, hwaits ht.path]
  · obtain ⟨acts, s, hpath, -, hrun⟩ := Policy.exists_path_end (q := q) hos hW hfresh
    exact ⟨acts.length, _, s, hpath.run_alone (hwaits hpath), rfl,
      Policy.forks_perm hos hW hfresh hpath hrun⟩

theorem psjf_abandons_children_readme : ∃ n w s,
    Policy.psjf.Interleaving Os.counting Qsort.insertion readmeWorkload n w ∧
      w.parent = .ended (.done s) ∧
      (w.children.map Prod.snd).Perm (readmeWorkload.map Process.child) :=
  (psjf_abandons_children Os.counting Qsort.insertion readmeWorkload Os.counting_healthy
    (by decide) (by decide)).2

end ProcSched
