/-
  ProcSched.Props.Output

  What a user of the program sees.  The kernel may give the steps of a scheduler
  and of its children any order; the lines of each of them are the same in all of
  these orders, those of the scheduler being a report on its schedule.
-/

import ProcSched.Props.Interleaving
import ProcSched.Props.WaitTotal
import ProcSched.Refine.Output

namespace ProcSched

open ForkJoin (Path forks heard)

namespace Policy

variable {P : Policy} {os : Os} {q : Qsort} {W : List Process}

/-- What is printed behind the loop. -/
def summary (P : Policy) (os : Os) (q : Qsort) (W : List Process) : List Printf :=
  match P with
  | rr =>
    [.average (int32 (Rr.responses (rr.table q W)
      (endings (rr.table q W) (rr.ran os q W) (makespan W + 1))).sum) W.length]
  | fifo | sjf | psjf => []

/-- The lines of a scheduler, `pids i` being the pid of the child of the process
    at index `i` of its table. -/
def report (P : Policy) (os : Os) (q : Qsort) (W : List Process) (pids : ℕ → Int) :
    List Printf :=
  P.opening os q W ++ (trace (P.table q W) (P.ran os q W) P.delay (makespan W)).filterMap
    (P.line (P.table q W) pids) ++ P.summary os q W

/-- The lines of a child. -/
def childLines (P : Policy) (os : Os) (pid : Int) (p : Process) : List Printf :=
  (P.texts os).first p.ready.toNat pid p.name ++ (P.texts os).last p.ready.toNat pid p.name

theorem closing_eq (hos : os.Healthy) (hW : WellFormed W) {k : ℕ} {s : P.State}
    (hs : Outcome.run (P.body os).step (P.start os q W) k = .done s) :
    P.closing s = P.summary os q W := by
  cases P with
  | rr =>
      have hT : WellFormed (rr.table q W) := rr.table_wellFormed hW
      obtain ⟨log, hlog, hstart⟩ := Rr.start_ok hos q W
      have hR := Loop.body_runs (Rr.obeys hos hT) (Rr.calls hos) hT hlog hstart
      obtain ⟨s', hs', hwait⟩ := Rr.wait_of_done (Rr.obeys hos hT) hT hlog.marks hstart
      replace hs : Outcome.run (Rr.discipline.body os).step (Rr.start os q W) k = .done s := hs
      rw [funext (Loop.body_step _ os)] at hs
      obtain rfl := Outcome.run_done_unique hs hs'
      have hrun : rr.run os q W k = .done (rr.snapshot s) := by
        rw [run, Rr.rrMain, hs]
        rfl
      have hlen := ((rr.describes (q := q) hos hW fun h => by cases h).closes hrun).tracks.length_eq
      rw [makespan_perm hW (rr.table_perm q W), ← ran_rr hos hW] at hwait
      rw [length_table] at hlen
      show [Printf.average s.wait s.proc.length] = _
      rw [hwait, show s.proc.length = W.length from hlen]
      rfl
  | _ => rfl

/-- No entry is forked twice. -/
theorem forkedOf_nodup (hos : os.Healthy) (hW : WellFormed W) (hz : P.Fresh W)
    {acts : List (ForkJoin.Action Int Child)} {b : Point P.State}
    (h : Path ((P.body os).system os) (P.start os q W).launch acts b) :
    (forkedOf ((P.body os).logAt b).marks).Nodup := by
  obtain ⟨acts', s, hend, -, hrun⟩ := exists_path_end (q := q) hos hW hz
  have hperm := forkedOf_perm (q := q) hos hW hz hrun
  rw [← P.log_snapshot os] at hperm
  have hnodup := hperm.nodup_iff.mpr List.nodup_range
  obtain ⟨rest, rfl⟩ := hend.prefix_of_end rfl h
  have hrest := Body.pid_of_path (c := .ended (.done s)) (P.runs (q := q) hos hW hz).calls hos
    (P.writesPids hos) (h.rest hend) hnodup
  exact hnodup.sublist hrest.1.sublist

/-- The pids of the children, and what everybody has printed in the end. -/
structure Prints (P : Policy) (os : Os) (q : Qsort) (W : List Process) (pids : ℕ → Int) : Prop where
  inj : ∀ i < W.length, ∀ j < W.length, pids i = pids j → i = j
  children : ∀ ms w, P.Performs os q W ms w → ∀ c ∈ w.children ++ w.reaped,
    ∃ i < W.length, c.1 = pids i ∧ c.2.state.name = (entry (P.table q W) i).name
  parent : ∀ ms w, P.Performs os q W ms w → (∀ v, ¬ ForkJoin.Step (P.printing os) w v) →
    heard none (P.output os ms) = P.report os q W pids
  child : ∀ ms w, P.Performs os q W ms w → (∀ v, ¬ ForkJoin.Step (P.printing os) w v) →
    ∀ i < W.length, heard (some (pids i)) (P.output os ms) =
      P.childLines os (pids i) (entry (P.table q W) i)
  nobody : ∀ ms w, P.Performs os q W ms w → (∀ v, ¬ ForkJoin.Step (P.printing os) w v) →
    ∀ p, (∀ i < W.length, p ≠ pids i) → heard (some p) (P.output os ms) = []

theorem exists_prints (hos : os.Healthy) (hW : WellFormed W) (hz : P.Fresh W) :
    ∃ pids, P.Prints os q W pids := by
  obtain ⟨acts, s, hpath, -, hrun⟩ := exists_path_end (q := q) hos hW hz
  have hR := P.runs (q := q) hos hW hz
  have hp := P.writesPids hos
  have hS := hR.sane hos
  have hM := Child.measured (P.body os) os
  have hperm := forkedOf_perm (q := q) hos hW hz hrun
  rw [← P.log_snapshot os] at hperm
  have hnodup := forkedOf_nodup hos hW hz hpath
  have hmem : ∀ i, i ∈ forkedOf ((P.body os).log s).marks ↔ i < W.length := fun i =>
    hperm.mem_iff.trans List.mem_range
  have hinj : ∀ i < W.length, ∀ j < W.length, (entry ((P.body os).proc s) i).pid =
      (entry ((P.body os).proc s) j).pid → i = j := fun i hi j hj =>
    hR.pid_inj hos hp hpath hnodup i ((hmem i).mpr hi) j ((hmem j).mpr hj)
  -- a child at any time, with the pid that its entry has in the end
  have hkid : ∀ ms w, P.Performs os q W ms w → ∀ c ∈ forks (ForkJoin.deeds (P.printing os) ms),
      ∃ i < W.length, c = ((entry ((P.body os).proc s) i).pid,
        Body.kid (P.texts os) (P.table q W) (entry ((P.body os).proc s) i).pid i) := by
    intro ms w h c hc
    have hpathw := h.speech.path
    obtain ⟨i, hi, rfl⟩ := hR.kid_of_mem hos hp (h.tally (hS.printing _ _) (hM.printing _)).path
      (forkedOf_nodup hos hW hz hpathw) c hc
    obtain ⟨rest, hrest⟩ := hpath.prefix_of_end rfl hpathw
    obtain ⟨hpre, hsame⟩ := Body.pid_of_path (c := .ended (.done s)) hR.calls hos hp
      (hpathw.rest (hrest ▸ hpath)) hnodup
    exact ⟨i, (hmem i).mp (hpre.subset hi), by rw [← hsame i hi]; rfl⟩
  refine ⟨fun i => (entry ((P.body os).proc s) i).pid, hinj, fun ms w h c hc => ?_,
    fun ms w h hstuck => ?_, fun ms w h hstuck i hi => ?_, fun ms w h hstuck p hno => ?_⟩
  · have hkeys := (h.tally (hS.printing _ _) (hM.printing _)).keys
    obtain ⟨d, hd, heq⟩ := List.mem_map.mp (hkeys.mem_iff.mp (List.mem_map_of_mem hc))
    obtain ⟨i, hi, rfl⟩ := hkid ms w h d hd
    simp only [Prod.mk.injEq] at heq
    exact ⟨i, hi, heq.1.symm, heq.2.1.symm⟩
  · obtain ⟨-, hspeech, -⟩ := ForkJoin.Trail.finished hS hM hpath rfl h hstuck
    refine ((P.lines hos hW hz _).speech_eq hR hos hp hspeech hnodup fun _ _ => rfl).trans ?_
    obtain ⟨⟨k, hk⟩, -⟩ := hR.path_at hos hpath
    have hmarks := ((P.describes (q := q) hos hW hz).closes hrun).marks
    rw [← P.log_snapshot os] at hmarks
    rw [report, ← closing_eq hos hW hk, ← hmarks]
    rfl
  · obtain ⟨-, -, hstates, hheard⟩ := ForkJoin.Trail.finished hS hM hpath rfl h hstuck
    have hforked : ((entry ((P.body os).proc s) i).pid, (entry (P.table q W) i).child) ∈
        forks acts := by
      rw [hR.forks_eq hos hp hpath hnodup]
      exact List.mem_map_of_mem ((hmem i).mpr hi)
    rw [← hstates] at hforked
    obtain ⟨c, hc, heq⟩ := List.mem_map.mp hforked
    obtain ⟨j, hj, rfl⟩ := hkid ms w h c hc
    obtain rfl := hinj j hj i hi (Prod.mk.inj heq).1
    exact (hheard _ hc).trans (Body.owed_kid _ _ _ _ _)
  · refine h.unheard hS hM fun hin => ?_
    obtain ⟨c, hc, rfl⟩ := List.mem_map.mp hin
    obtain ⟨i, hi, rfl⟩ := hkid ms w h c hc
    exact hno i hi rfl

/-- Everybody can be brought to an end. -/
theorem Performs.exists_end (hos : os.Healthy) (hW : WellFormed W) (hz : P.Fresh W)
    {ms : List P.Move} {w : P.Stage} (h : P.Performs os q W ms w) :
    ∃ ms' w', P.Performs os q W (ms ++ ms') w' ∧ ∀ v, ¬ ForkJoin.Step (P.printing os) w' v := by
  obtain ⟨acts, s, hpath, -⟩ := exists_path_end (q := q) hos hW hz
  obtain ⟨acts', hpath'⟩ := hpath.printing ((P.body os).voice (P.texts os) os) (P.opening os q W)
  exact h.exists_stuck (((P.runs hos hW hz).sane hos).printing _ _)
    ((Child.measured _ os).printing _) hpath' rfl

theorem exists_performs_end (hos : os.Healthy) (hW : WellFormed W) (hz : P.Fresh W) :
    ∃ ms w, P.Performs os q W ms w ∧ ∀ v, ¬ ForkJoin.Step (P.printing os) w v := by
  obtain ⟨ms, w, h⟩ := Performs.exists_end (P := P) (q := q) hos hW hz ForkJoin.Trail.start
  exact ⟨_, w, h⟩

@[simp] theorem output_append (os : Os) (l m : List P.Move) :
    P.output os (l ++ m) = P.output os l ++ P.output os m :=
  ForkJoin.transcript_append l m

/-- Everybody's lines. -/
def everyLine (P : Policy) (os : Os) (q : Qsort) (W : List Process) (pids : ℕ → Int) :
    List (Option Int × Printf) :=
  ForkJoin.spoken ((none, P.report os q W pids) :: (List.range W.length).map fun i =>
    (some (pids i), P.childLines os (pids i) (entry (P.table q W) i)))

/-- The scheduler is on its way through its report. -/
theorem Prints.heard_prefix {pids : ℕ → Int} (hprints : P.Prints os q W pids) (hos : os.Healthy)
    (hW : WellFormed W) (hz : P.Fresh W) {ms : List P.Move} {w : P.Stage}
    (h : P.Performs os q W ms w) : heard none (P.output os ms) <+: P.report os q W pids := by
  obtain ⟨ms', w', h', hstuck⟩ := h.exists_end hos hW hz
  refine ⟨heard none (P.output os ms'), ?_⟩
  rw [← ForkJoin.heard_append, ← output_append]
  exact hprints.parent _ w' h' hstuck

/-- If the children have no lines, there is one output. -/
theorem Prints.output_silent {pids : ℕ → Int} (hprints : P.Prints os q W pids)
    (hnone : ∀ pid p, P.childLines os pid p = []) (hos : os.Healthy) (hW : WellFormed W)
    (hz : P.Fresh W) {ms : List P.Move} {w : P.Stage} (h : P.Performs os q W ms w) :
    P.output os ms <+: (P.report os q W pids).map (fun x => (none, x)) ∧
      ((∀ v, ¬ ForkJoin.Step (P.printing os) w v) →
        P.output os ms = (P.report os q W pids).map fun x => (none, x)) := by
  have hend : ∀ ms w, P.Performs os q W ms w → (∀ v, ¬ ForkJoin.Step (P.printing os) w v) →
      P.output os ms = (P.report os q W pids).map fun x => (none, x) := by
    intro ms w h hstuck
    rw [← hprints.parent ms w h hstuck]
    refine ForkJoin.eq_map_heard fun p => ?_
    by_cases hp : ∃ i < W.length, p = pids i
    · obtain ⟨i, hi, rfl⟩ := hp
      rw [hprints.child ms w h hstuck i hi, hnone]
    · push Not at hp
      exact hprints.nobody ms w h hstuck p hp
  obtain ⟨ms', w', h', hstuck⟩ := h.exists_end hos hW hz
  have hall := hend _ w' h' hstuck
  rw [output_append] at hall
  exact ⟨⟨_, hall⟩, hend ms w h⟩

theorem Prints.perm_everyLine {pids : ℕ → Int} (hprints : P.Prints os q W pids)
    {ms : List P.Move} {w : P.Stage} (h : P.Performs os q W ms w)
    (hstuck : ∀ v, ¬ ForkJoin.Step (P.printing os) w v) :
    (P.output os ms).Perm (P.everyLine os q W pids) := by
  have hnodup : (((none, P.report os q W pids) :: (List.range W.length).map fun i =>
      (some (pids i), P.childLines os (pids i) (entry (P.table q W) i))).map Prod.fst).Nodup := by
    rw [List.map_cons, List.nodup_cons, List.map_map]
    refine ⟨by simp, List.nodup_range.map_on fun i hi j hj hij => ?_⟩
    exact hprints.inj i (List.mem_range.mp hi) j (List.mem_range.mp hj) (Option.some.inj hij)
  refine ForkJoin.perm_of_heard fun who => ?_
  rcases who with _ | p
  · exact (hprints.parent ms w h hstuck).trans
      (ForkJoin.heard_spoken hnodup List.mem_cons_self).symm
  · by_cases hp : ∃ i < W.length, p = pids i
    · obtain ⟨i, hi, rfl⟩ := hp
      refine (hprints.child ms w h hstuck i hi).trans (ForkJoin.heard_spoken hnodup ?_).symm
      exact List.mem_cons_of_mem _ (List.mem_map_of_mem (List.mem_range.mpr hi))
    · push Not at hp
      refine (hprints.nobody ms w h hstuck p hp).trans
        (ForkJoin.heard_spoken_of_not_mem fun hin => ?_).symm
      rw [List.map_cons, List.map_map, List.mem_cons, List.mem_map] at hin
      obtain ⟨i, hi, heq⟩ := hin.resolve_left (Option.some_ne_none p)
      exact hp i (List.mem_range.mp hi) (Option.some.inj heq).symm

end Policy

/-- What a scheduler and its children print, in any order of their steps.  At any
    time the scheduler has printed a beginning of its report, the child of every
    process a beginning of its own lines and nobody else anything.  It is always
    possible that all come to their end, and then these lines have been printed,
    in some order. -/
theorem Policy.prints (P : Policy) (os : Os) (q : Qsort) (W : List Process) (hos : os.Healthy)
    (hW : WellFormed W) (hz : P.Fresh W) : ∃ pids : ℕ → Int,
      (∀ i < W.length, ∀ j < W.length, pids i = pids j → i = j) ∧
      ∀ ms w, P.Performs os q W ms w →
        (∀ c ∈ w.children ++ w.reaped, ∃ i < W.length, c.1 = pids i ∧
          c.2.state.name = (entry (P.table q W) i).name) ∧
        heard none (P.output os ms) <+: P.report os q W pids ∧
        (∀ i < W.length, heard (some (pids i)) (P.output os ms) <+:
          P.childLines os (pids i) (entry (P.table q W) i)) ∧
        (∀ p, (∀ i < W.length, p ≠ pids i) → heard (some p) (P.output os ms) = []) ∧
        ((∀ v, ¬ ForkJoin.Step (P.printing os) w v) →
          (P.output os ms).Perm (P.everyLine os q W pids)) ∧
        ∃ ms' w', P.Performs os q W (ms ++ ms') w' ∧
          ∀ v, ¬ ForkJoin.Step (P.printing os) w' v := by
  obtain ⟨pids, hprints⟩ := exists_prints (P := P) (q := q) hos hW hz
  refine ⟨pids, hprints.inj, fun ms w h => ⟨hprints.children ms w h, ?_⟩⟩
  obtain ⟨ms', w', h', hstuck⟩ := h.exists_end hos hW hz
  -- what is printed in the end begins with what has been printed
  have hchild := hprints.child _ w' h' hstuck
  have hnobody := hprints.nobody _ w' h' hstuck
  simp only [output_append, ForkJoin.heard_append] at hchild hnobody
  exact ⟨hprints.heard_prefix hos hW hz h, fun i hi => ⟨_, hchild i hi⟩,
    fun p hp => (List.append_eq_nil_iff.mp (hnobody p hp)).1,
    hprints.perm_everyLine h, ms', w', h', hstuck⟩

theorem Policy.prints_readme : ∃ pids ms w,
    Policy.fifo.Performs Os.counting Qsort.insertion readmeWorkload ms w ∧
      (Policy.fifo.output Os.counting ms).Perm
        (Policy.fifo.everyLine Os.counting Qsort.insertion readmeWorkload pids) := by
  obtain ⟨pids, -, h⟩ := Policy.prints .fifo Os.counting Qsort.insertion readmeWorkload
    Os.counting_healthy (by decide) fun h => by cases h
  obtain ⟨-, -, -, -, -, ms, w, hms, hstuck⟩ := h [] _ ForkJoin.Trail.start
  exact ⟨pids, _, w, hms, (h _ w hms).2.2.2.2.1 hstuck⟩

end ProcSched
