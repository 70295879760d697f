/-
  ProcSched.Props.Report

  The output of FIFO, RR and SJF in closed form.  FIFO prints its table and then
  two lines for each process, the second with the end `C k` of the process; RR
  prints arrivals and completions in the order of the clock.  The children of RR
  and SJF are silent, so all that can be seen of these two is the same in every
  order of the steps.  The children of FIFO are not, but the scheduler prints the
  end of a process behind all lines of its child.
-/

import ProcSched.Props.FirstCome
import ProcSched.Props.Output

namespace ProcSched

open ForkJoin (Path forks heard)

namespace Fifo

variable {os : Os} {q : Qsort} {W : List Process}

/-- The output of the scheduler for the table `V`. -/
def chart (V : List Process) : List Printf :=
  V.map (fun p => .record p.name p.ready p.exec) ++ .parentAssigned ::
    (List.range V.length).flatMap fun k =>
      [.contextSwitch, .ended (entry V k).name (endTime V (k + 1)).toNat]

/-- FIFO_2 in Result.txt. -/
example : chart (cleanTable
    [⟨"P1", 0, 80000⟩, ⟨"P2", 100, 5000⟩, ⟨"P3", 200, 1000⟩, ⟨"P4", 300, 1000⟩]) =
    [.record "P1" 0 80000, .record "P2" 100 5000, .record "P3" 200 1000, .record "P4" 300 1000,
      .parentAssigned,
      .contextSwitch, .ended "P1" 80000, .contextSwitch, .ended "P2" 85000,
      .contextSwitch, .ended "P3" 86000, .contextSwitch, .ended "P4" 87000] := by
  decide

section

variable {σ : Schedule ℕ} {pids : ℕ → Int} (hF : (jobsOf W).Fcfs σ)
  (hsorted : ∀ i j, i ≤ j → j < W.length → (jobsOf W).release i ≤ (jobsOf W).release j)
  (hpos : ∀ i < W.length, 0 < (jobsOf W).length i)
include hF hsorted hpos

/-- Between the end of the process before it and its own end, a process is started
    at its `S` and nobody else is. -/
theorem switches_between {k t : ℕ} (hk : k < W.length) (hle : (jobsOf W).fcfsEnd k ≤ t)
    (hlt : t < (jobsOf W).fcfsEnd (k + 1)) :
    (if σ.prev t ≠ σ t then (σ t).toList else []) =
      if t = (jobsOf W).fcfsStart k then [k] else [] := by
  by_cases ht : t = (jobsOf W).fcfsStart k
  · obtain ⟨hrun, hprev⟩ := hF.starts rfl hsorted hpos hk
    rw [← ht] at hrun hprev
    rw [hrun, if_pos hprev, if_pos ht]
    rfl
  · rw [if_neg ht, ite_eq_right_iff]
    intro hprev
    cases hrun : σ t with
    | none => rfl
    | some i =>
        have hi := mem_jobsOf.mp (hF.legal t i hrun).mem
        have hstart := (hF.starts_iff rfl hsorted hpos hi).mp ⟨hrun, fun h => hprev (h.trans hrun.symm)⟩
        have hend := (jobsOf W).fcfsEnd_succ i
        have hone := hpos i hi
        have hearlier := (jobsOf W).fcfsEnd_le_fcfsStart i
        -- whoever is before or behind k starts outside of this stretch
        rcases Nat.lt_trichotomy i k with hik | rfl | hik
        · have := (jobsOf W).fcfsEnd_mono (show i + 1 ≤ k from hik)
          omega
        · exact absurd hstart ht
        · have := (jobsOf W).fcfsEnd_mono (show k + 1 ≤ i from hik)
          omega

/-- It ends at its `C` and nobody else does. -/
theorem ended_between {k t : ℕ} (hk : k < W.length) (hle : (jobsOf W).fcfsEnd k ≤ t)
    (hlt : t < (jobsOf W).fcfsEnd (k + 1)) :
    (jobsOf W).ended σ (t + 1) = if t + 1 = (jobsOf W).fcfsEnd (k + 1) then some k else none := by
  by_cases ht : t + 1 = (jobsOf W).fcfsEnd (k + 1)
  · rw [if_pos ht]
    exact (ended_iff hF hsorted hpos hk).mpr ht
  · rw [if_neg ht, Option.eq_none_iff_forall_ne_some]
    intro i hended
    obtain ⟨u, -, hrun⟩ := Jobs.run_of_ended hended
    have hi := mem_jobsOf.mp (hF.legal u i hrun).mem
    have hend := (ended_iff hF hsorted hpos hi).mp hended
    rcases Nat.lt_trichotomy i k with hik | rfl | hik
    · have := (jobsOf W).fcfsEnd_mono (show i + 1 ≤ k from hik)
      omega
    · exact ht hend
    · have := (jobsOf W).fcfsEnd_mono (show k + 1 ≤ i from hik)
      have := Jobs.fcfsEnd_lt (hpos i hi) hik
      omega

/-- The lines for one iteration between two ends. -/
theorem filterMap_line_succ {k t : ℕ} (hk : k < W.length) (hle : (jobsOf W).fcfsEnd k ≤ t)
    (hlt : t < (jobsOf W).fcfsEnd (k + 1)) :
    (trace W σ 1 (t + 1)).filterMap (Policy.fifo.line W pids) =
      (trace W σ 1 t).filterMap (Policy.fifo.line W pids) ++
        ((if t = (jobsOf W).fcfsStart k then [.contextSwitch] else []) ++
          if t + 1 = (jobsOf W).fcfsEnd (k + 1) then [.ended (entry W k).name (t + 1)] else []) := by
  have hforks : (forkMarks W t).filterMap (Policy.fifo.line W pids) = [] := by
    rw [List.filterMap_eq_nil_iff]
    intro e he
    obtain ⟨i, -, rfl⟩ := List.mem_map.mp he
    rfl
  rw [filterMap_trace_succ (fun _ _ => rfl) (fun _ _ => rfl), hforks, List.nil_append,
    switches_between hF hsorted hpos hk hle hlt, ended_between hF hsorted hpos hk hle hlt]
  congr 2
  · split <;> rfl
  · split <;> rfl

/-- The lines up to the end of a process. -/
theorem filterMap_line_fcfsEnd {k : ℕ} (hk : k ≤ W.length) :
    (trace W σ 1 ((jobsOf W).fcfsEnd k)).filterMap (Policy.fifo.line W pids) =
      (List.range k).flatMap fun j =>
        [.contextSwitch, .ended (entry W j).name ((jobsOf W).fcfsEnd (j + 1))] := by
  induction k with
  | zero => rfl
  | succ k ih =>
      have hstart := (jobsOf W).fcfsEnd_le_fcfsStart k
      have hend := (jobsOf W).fcfsEnd_succ k
      have hone := hpos k hk
      -- from the end of one process to the end of the next
      have hbetween : ∀ t, (jobsOf W).fcfsEnd k ≤ t → t ≤ (jobsOf W).fcfsEnd (k + 1) →
          (trace W σ 1 t).filterMap (Policy.fifo.line W pids) =
            (trace W σ 1 ((jobsOf W).fcfsEnd k)).filterMap (Policy.fifo.line W pids) ++
              ((if (jobsOf W).fcfsStart k < t then [.contextSwitch] else []) ++
                if t = (jobsOf W).fcfsEnd (k + 1) then [.ended (entry W k).name t] else []) := by
        intro t hle
        induction t, hle using Nat.le_induction with
        | base =>
            intro _
            rw [if_neg (by omega), if_neg (by omega), List.append_nil, List.append_nil]
        | succ t hle iht =>
            intro hlt
            rw [filterMap_line_succ hF hsorted hpos hk hle hlt, iht (by omega),
              if_neg (show ¬ t = (jobsOf W).fcfsEnd (k + 1) by omega), List.append_nil,
              List.append_assoc, ← List.append_assoc (if (jobsOf W).fcfsStart k < t then _ else _)]
            congr 2
            -- the switch stays behind, and the end is the last unit's
            rcases Nat.lt_trichotomy t ((jobsOf W).fcfsStart k) with h | h | h
            · rw [if_neg (by omega), if_neg (by omega), if_neg (by omega)]
              rfl
            · rw [if_neg (by omega), if_pos h, if_pos (by omega)]
              rfl
            · rw [if_pos h, if_neg (by omega), if_pos (by omega)]
              rfl
      rw [hbetween _ (by omega) (Nat.le_refl _), if_pos (by omega), if_pos rfl,
        ih (Nat.le_of_succ_le hk), List.range_succ, List.flatMap_append, List.flatMap_singleton]
      rfl

end

/-- The report of FIFO is its chart. -/
theorem report_eq (hos : os.Healthy) (hW : WellFormed W) (pids : ℕ → Int) :
    Policy.fifo.report os q W pids = chart (q.sort compare W) := by
  have hT : WellFormed (q.sort compare W) := sort_wellFormed hW
  obtain ⟨log, -, hstart⟩ := start_ok hos q W
  have hlines : (trace (q.sort compare W) (Policy.fifo.ran os q W) 1
      ((jobsOf (q.sort compare W)).fcfsEnd (q.sort compare W).length)).filterMap
        (Policy.fifo.line (q.sort compare W) pids) = _ :=
    filterMap_line_fcfsEnd (fcfs_ran hos hW) (release_sorted hW) (length_pos hW) (Nat.le_refl _)
  have hends : ∀ k ∈ List.range (q.sort compare W).length,
      [Printf.contextSwitch, .ended (entry (q.sort compare W) k).name
        ((jobsOf (q.sort compare W)).fcfsEnd (k + 1))] =
      [.contextSwitch, .ended (entry (q.sort compare W) k).name
        (endTime (q.sort compare W) (k + 1)).toNat] := by
    intro k hk
    rw [← fcfsEnd_eq hT (k := k + 1) (List.mem_range.mp hk), Int.toNat_natCast]
  rw [← makespan_eq (q := q) hos hW, List.flatMap_congr hends] at hlines
  rw [chart, ← List.singleton_append, ← hlines, ← List.append_assoc, Policy.report, Policy.summary,
    List.append_nil, Policy.opening, opening, hstart]
  rfl

/-- What the scheduler prints under FIFO, in any order of the steps. -/
theorem prints_chart (os : Os) (q : Qsort) (W : List Process) (hos : os.Healthy)
    (hW : WellFormed W) (ms : List Policy.fifo.Move) (w : Policy.fifo.Stage)
    (h : Policy.fifo.Performs os q W ms w) :
    heard none (Policy.fifo.output os ms) <+: chart (q.sort compare W) ∧
      ((∀ v, ¬ ForkJoin.Step (Policy.fifo.printing os) w v) →
        heard none (Policy.fifo.output os ms) = chart (q.sort compare W)) := by
  have hz : Policy.fifo.Fresh W := fun h => by cases h
  obtain ⟨pids, hprints⟩ := Policy.exists_prints (P := .fifo) (q := q) hos hW hz
  rw [← report_eq hos hW pids]
  exact ⟨hprints.heard_prefix hos hW hz h, hprints.parent ms w h⟩

theorem prints_chart_readme : ∃ ms w,
    Policy.fifo.Performs Os.counting Qsort.insertion readmeWorkload ms w ∧
      heard none (Policy.fifo.output Os.counting ms) =
        chart (Qsort.insertion.sort compare readmeWorkload) := by
  obtain ⟨ms, w, h, hstuck⟩ := Policy.exists_performs_end (P := .fifo) (q := .insertion)
    Os.counting_healthy (W := readmeWorkload) (by decide) fun h => by cases h
  exact ⟨_, w, h, (prints_chart Os.counting Qsort.insertion readmeWorkload Os.counting_healthy
    (by decide) _ w h).2 hstuck⟩

/-- The line at a finish comes from the finish test. -/
theorem tells_ended {pt : Point Loop.State} {name : String} {c : ℕ}
    (h : .ended name c ∈ ((discipline.body os).voice (discipline.texts texts) os).tells pt) :
    ∃ s r, pt = .top s ∧ s.running = some r ∧ (entry s.proc r).exec = 0 ∧
      name = (entry s.proc r).name ∧ c = s.now := by
  cases pt with
  | ended r => cases h
  | top s =>
      simp only [Body.voice, Loop.Discipline.texts] at h
      cases hr : s.running with
      | none =>
          rw [hr] at h
          cases h
      | some r =>
          simp only [hr] at h
          split at h
          · next hexec =>
            obtain ⟨rfl, rfl⟩ := Printf.ended.inj (List.mem_singleton.mp h)
            exact ⟨s, r, rfl, hr, hexec, rfl, rfl⟩
          · cases h
  | scan i s =>
      simp only [Body.voice, Loop.Discipline.texts, texts] at h
      split at h
      · split at h
        · split at h <;> cases h
        · cases h
      · split at h
        · split at h <;> simp at h
        · cases h

/-- The process that is finished: it has been forked, and ends at its `C`. -/
theorem finish_spec (hos : os.Healthy) (hW : WellFormed W) {acts : List (ForkJoin.Action Int Child)}
    {s : Loop.State} {j : ℕ} (h : Path ((discipline.body os).system os) (start os q W).launch acts
      (.top s)) (hr : s.running = some j) (hexec : (entry s.proc j).exec = 0) :
    j < W.length ∧ j ∈ forkedOf s.log.marks ∧
      (entry s.proc j).name = (entry (q.sort compare W) j).name ∧
      (s.now : Int) = endTime (q.sort compare W) (j + 1) := by
  have hT : WellFormed (q.sort compare W) := sort_wellFormed hW
  have hd := obeys hos hT (Policy.table_sorted (P := .fifo) hW (by decide))
  obtain ⟨log, hlog, hstart⟩ := start_ok hos q W
  obtain ⟨⟨k, hs⟩, -⟩ := (Loop.body_runs hd (calls hos) hT hlog hstart).path_at hos h
  rw [funext (Loop.body_step _ os)] at hs
  obtain ⟨hj, hjmem⟩ := Loop.mem_forkedOf_running hd hT hlog.marks hstart hs hr
  obtain ⟨hI, hB⟩ := Loop.inv_of_next hd hT hlog.marks hstart hs
  have hended := hI.ended_some hB hT hr hexec
  rw [← Policy.ran_fifo hos hW, ended_iff (fcfs_ran hos hW) (release_sorted hW)
    (length_pos hW) hj] at hended
  refine ⟨by rwa [q.length_sort] at hj, hjmem, hI.tracks.name_eq j hj, ?_⟩
  rw [← fcfsEnd_eq hT (k := j + 1) hj, ← hended, hI.now]

theorem ended_not_mem_opening (os : Os) (q : Qsort) (W : List Process) (name : String) (c : ℕ) :
    .ended name c ∉ opening os q W := by
  rw [opening, List.mem_append, List.mem_map]
  rintro (⟨p, -, hp⟩ | h)
  · cases hp
  · split at h
    · cases List.mem_singleton.mp h
    · cases h

/-- Under FIFO the scheduler prints that a process has ended when the child of the
    process has printed both its lines, and the child prints nothing behind that.
    The child takes the time in its lines from its own copy of `time_cnt`, so both
    show the ready time; the line of the scheduler shows the end. -/
theorem ended_after_child (os : Os) (q : Qsort) (W : List Process) (hos : os.Healthy)
    (hW : WellFormed W) (ms : List Policy.fifo.Move) (w : Policy.fifo.Stage)
    (h : Policy.fifo.Performs os q W ms w) (l r : List (Option Int × Printf)) (name : String)
    (c : ℕ) (hout : Policy.fifo.output os ms = l ++ (none, .ended name c) :: r) :
    ∃ i < W.length, ∃ pid, name = (entry (q.sort compare W) i).name ∧
      (c : Int) = endTime (q.sort compare W) (i + 1) ∧
      heard (some pid) l = [.forked name (entry (q.sort compare W) i).ready.toNat pid,
        .exited name (entry (q.sort compare W) i).ready.toNat] ∧
      heard (some pid) r = [] := by
  have hz : Policy.fifo.Fresh W := fun h => by cases h
  have hR := Policy.runs (P := .fifo) (q := q) hos hW hz
  have hp := Policy.writesPids (P := .fifo) hos
  have hS := hR.sane hos
  have hM := Child.measured (Policy.fifo.body os) os
  obtain ⟨ms₁, ms₂, w₁, rfl, h₁, rfl, hopen | ⟨acts₁, b₁, y, c₁, rest, hp₁, hy, htold, -,
    hplain⟩⟩ := ForkJoin.Trail.told h hout
  · exact absurd hopen (ended_not_mem_opening os q W name c)
  -- the line is the one behind a finish test
  obtain ⟨s, j, rfl, hr, hexec, rfl, rfl⟩ := tells_ended htold
  obtain ⟨hj, hjmem, hname, hend⟩ := finish_spec hos hW hp₁ hr hexec
  -- the step behind the line is the wait for the child
  have hwait : y = .wait (entry s.proc j).pid := by
    have hwaits : (Policy.fifo.body os).waits s = some (entry s.proc j).pid := by
      show (discipline.body os).waits s = _
      simp only [Loop.Discipline.body, hr, hexec, if_true]
    simp only [Body.system, Body.advance, hwaits] at hy
    exact (Prod.mk.inj (Option.some.inj hy)).1.symm
  subst hwait
  have hpath := h₁.speech.path
  have hnodup := Policy.forkedOf_nodup hos hW hz hpath
  obtain ⟨k, hk, hheard, hsilent⟩ := ForkJoin.Trail.heard_waited hS hM h h₁
    (p := (entry s.proc j).pid)
    (by rw [hplain, ForkJoin.waits_append, ForkJoin.waits_append, ForkJoin.waits_wait]; simp)
  -- that child is the one forked for the process
  obtain ⟨i, hi, heq⟩ := hR.kid_of_mem hos hp (h₁.tally (hS.printing _ _) (hM.printing _)).path
    hnodup _ hk
  obtain ⟨hpid, rfl⟩ := Prod.mk.inj heq
  rw [hplain, List.append_assoc] at hpath
  obtain ⟨hpre, hsame⟩ := Body.pid_of_path hR.calls hos hp (hp₁.rest hpath) hnodup
  obtain rfl := hR.pid_inj hos hp hpath hnodup i hi j (hpre.subset hjmem)
    (hpid.symm.trans (hsame j hjmem).symm)
  refine ⟨i, hj, (entry s.proc i).pid, hname, hend, ?_, ?_⟩
  · rw [hheard, Body.owed_kid, ← hpid, hname]
    rfl
  · -- and what the child prints behind it is nothing
    rw [Policy.output_append] at hout
    have htail := List.append_cancel_left hout
    have hsplit := congrArg (heard (some (entry s.proc i).pid)) htail
    rw [ForkJoin.heard_cons_ne (Option.some_ne_none _).symm] at hsplit
    exact hsplit.symm.trans hsilent

theorem ended_after_child_readme : ∃ ms w name c ready pid, ∃ l r : List (Option Int × Printf),
    Policy.fifo.Performs Os.counting Qsort.insertion readmeWorkload ms w ∧
      Policy.fifo.output Os.counting ms = l ++ (none, .ended name c) :: r ∧
      heard (some pid) l = [.forked name ready pid, .exited name ready] ∧
      heard (some pid) r = [] := by
  obtain ⟨ms, w, h, hstuck⟩ := Policy.exists_performs_end (P := .fifo) (q := .insertion)
    Os.counting_healthy (W := readmeWorkload) (by decide) fun h => by cases h
  obtain ⟨pids, hprints⟩ := Policy.exists_prints (P := .fifo) (q := .insertion)
    Os.counting_healthy (W := readmeWorkload) (by decide) (fun h => by cases h)
  have hended : .ended "P1" 2000 ∈ heard none (Policy.fifo.output Os.counting ms) := by
    rw [hprints.parent _ w h hstuck, report_eq Os.counting_healthy (by decide)]
    decide
  obtain ⟨l, r, hout⟩ := List.append_of_mem (ForkJoin.mem_heard.mp hended)
  obtain ⟨i, -, pid, -, -, hl, hr⟩ := ended_after_child Os.counting Qsort.insertion readmeWorkload
    Os.counting_healthy (by decide) _ w h l r _ _ hout
  exact ⟨_, w, _, _, _, pid, l, r, h, hout, hl, hr⟩

end Fifo

/-! ## Silent children -/

namespace Policy

variable {P : Policy} {os : Os} {q : Qsort} {W : List Process}

/-- Nobody arrives when the last process is done. -/
theorem forkMarks_makespan (hos : os.Healthy) (hW : WellFormed W) (hz : P.Fresh W) :
    forkMarks (P.table q W) (makespan W) = [] := by
  have hd := P.describes (q := q) hos hW hz
  rw [forkMarks, List.map_eq_nil_iff, List.filter_eq_nil_iff]
  intro i hi hrel
  rw [decide_eq_true_eq] at hrel
  have hi := List.mem_range.mp hi
  have hzero := hd.legal.served_eq_zero hrel.ge
  have hfin := hd.finished i (mem_jobsOf.mpr hi)
  have := (P.table_wellFormed (q := q) hW).jobs_length_pos hi
  omega

/-- The lines of a scheduler without context switches by the clock. -/
theorem filterMap_line_clock (hos : os.Healthy) (hW : WellFormed W) (hz : P.Fresh W)
    (hdelay : P.delay = 1) {f : ℕ × Mark → Option Printf} {g : ℕ → ℕ → Printf}
    (hselect : ∀ t i, f (t, .select i) = none) (hdecrement : ∀ t i, f (t, .decrement i) = none)
    (hswitch : ∀ t i, f (t, .switch i) = none) (hfinish : ∀ t i, f (t, .finish i) = some (g t i))
    {C : ℕ → ℕ} (hC : ∀ i < W.length, P.CompletesAt os q W i (C i)) :
    (trace (P.table q W) (P.ran os q W) P.delay (makespan W)).filterMap f =
      (List.range (makespan W + 1)).flatMap fun t =>
        ((List.range W.length).filter fun i => C i = t).map (g t) ++
          (forkMarks (P.table q W) t).filterMap f := by
  have hd := P.describes (q := q) hos hW hz
  have hclock := filterMap_trace_clock hselect hdecrement hswitch (P.table q W) (P.ran os q W)
    (makespan W)
  rw [forkMarks_makespan hos hW hz, List.filterMap_nil, List.append_nil] at hclock
  rw [hdelay, hclock]
  refine List.flatMap_congr fun t _ => ?_
  rw [ended_toList hd.legal (P.table_wellFormed hW) ((completesAt_iff hos hW hz).mp hC),
    P.length_table, funext (hfinish t)]
  exact congrArg (· ++ _) (congrFun List.filterMap_eq_map _)

end Policy

namespace Rr

/-- The output of RR on the table `V` by the clock, `C i` being the completion of
    the process at index `i`: the process that has ended, then those that arrive;
    and at last the average of the response times. -/
def chronicle (V : List Process) (pids : ℕ → Int) (C : ℕ → ℕ) (T : ℕ) : List Printf :=
  ((List.range (T + 1)).flatMap fun t : ℕ =>
    (((List.range V.length).filter fun i => C i = t).map fun i =>
      .finish (entry V i).name (pids i) t) ++
    ((List.range V.length).filter fun i => (entry V i).ready = t).map fun i =>
      .readyAt (entry V i).name t) ++
  [.average (int32 (∑ i ∈ Finset.range V.length, ((C i : Int) - (entry V i).ready))) V.length]

variable {os : Os} {q : Qsort} {W : List Process}

theorem report_eq (hos : os.Healthy) (hW : WellFormed W) (pids : ℕ → Int) {C : ℕ → ℕ}
    (hC : ∀ i < W.length, Policy.rr.CompletesAt os q W i (C i)) :
    Policy.rr.report os q W pids = chronicle (q.sort rrCompare W) pids C (makespan W) := by
  have hz : Policy.rr.Fresh W := fun h => by cases h
  have hT : WellFormed (q.sort rrCompare W) := Policy.table_wellFormed (P := .rr) (q := q) hW
  have hd := describes_rr_run (q := q) hos hW
  have hJ := (Policy.completesAt_iff (P := .rr) hos hW hz).mp hC
  have hsum := sum_responses hd.legal hT hJ hd.finished
  have hclock := Policy.filterMap_line_clock (P := .rr) (q := q) hos hW hz rfl
    (f := Policy.rr.line (q.sort rrCompare W) pids) (fun _ _ => rfl) (fun _ _ => rfl)
    (fun _ _ => rfl) (fun _ _ => rfl) hC
  have hlen : (q.sort rrCompare W).length = W.length := q.length_sort _ _
  have hsummary : Policy.rr.summary os q W = [.average (int32 (∑ i ∈ Finset.range W.length,
      ((C i : Int) - (entry (q.sort rrCompare W) i).ready))) W.length] := by
    rw [Policy.summary, show Policy.rr.table q W = q.sort rrCompare W from rfl, hsum, hlen]
  have harrive : ∀ t, (forkMarks (q.sort rrCompare W) t).filterMap
      (Policy.rr.line (q.sort rrCompare W) pids) =
        ((List.range W.length).filter fun i => (entry (q.sort rrCompare W) i).ready = t).map
          fun i => .readyAt (entry (q.sort rrCompare W) i).name t := by
    intro t
    rw [forkMarks, List.filterMap_map, hlen, ← List.filterMap_eq_map]
    refine congrArg _ (List.filter_congr fun i hi => ?_)
    rw [← hT.release_eq (by rw [hlen]; exact List.mem_range.mp hi)]
    simp only [Nat.cast_inj]
  rw [Policy.report, hsummary, chronicle, hlen, Policy.opening, List.nil_append]
  refine congrArg (· ++ _) (hclock.trans (List.flatMap_congr fun t _ => ?_))
  exact congrArg _ (harrive t)

/-- RR with its children prints one and the same text in all orders of their steps. -/
theorem prints_by_clock (os : Os) (q : Qsort) (W : List Process) (hos : os.Healthy)
    (hW : WellFormed W) : ∃ pids : ℕ → Int, ∃ C : ℕ → ℕ,
      (∀ i < W.length, ∀ j < W.length, pids i = pids j → i = j) ∧
      (∀ i < W.length, Policy.rr.CompletesAt os q W i (C i)) ∧
      ∀ ms w, Policy.rr.Performs os q W ms w →
        (∀ c ∈ w.children ++ w.reaped, ∃ i < W.length, c.1 = pids i ∧
          c.2.state.name = (entry (q.sort rrCompare W) i).name) ∧
        Policy.rr.output os ms <+:
          (chronicle (q.sort rrCompare W) pids C (makespan W)).map (fun x => (none, x)) ∧
        ((∀ v, ¬ ForkJoin.Step (Policy.rr.printing os) w v) → Policy.rr.output os ms =
          (chronicle (q.sort rrCompare W) pids C (makespan W)).map fun x => (none, x)) := by
  have hz : Policy.rr.Fresh W := fun h => by cases h
  obtain ⟨pids, hprints⟩ := Policy.exists_prints (P := .rr) (q := q) hos hW hz
  obtain ⟨C, hC⟩ := exists_completesAt (q := q) hos hW
  refine ⟨pids, C, hprints.inj, hC, fun ms w h => ⟨hprints.children ms w h, ?_⟩⟩
  rw [← report_eq hos hW pids hC]
  exact hprints.output_silent (fun _ _ => rfl) hos hW hz h

theorem prints_by_clock_readme : ∃ pids C ms w,
    Policy.rr.Performs Os.counting Qsort.insertion readmeWorkload ms w ∧
      Policy.rr.output Os.counting ms =
        (chronicle (Qsort.insertion.sort rrCompare readmeWorkload) pids C
          (makespan readmeWorkload)).map fun x => (none, x) := by
  obtain ⟨pids, C, -, -, hall⟩ := prints_by_clock Os.counting Qsort.insertion readmeWorkload
    Os.counting_healthy (by decide)
  obtain ⟨ms, w, h, hstuck⟩ := Policy.exists_performs_end (P := .rr) (q := .insertion)
    Os.counting_healthy (W := readmeWorkload) (by decide) fun h => by cases h
  exact ⟨pids, C, _, w, h, (hall _ w h).2.2 hstuck⟩

end Rr

namespace Sjf

/-- The output of SJF on the table `V`: the processes in the order of their
    completions. -/
def chronicle (V : List Process) (pids : ℕ → Int) (C : ℕ → ℕ) (T : ℕ) : List Printf :=
  .called :: (List.range (T + 1)).flatMap fun t : ℕ =>
    ((List.range V.length).filter fun i => C i = t).map fun i =>
      .namePid (entry V i).name (pids i)

variable {os : Os} {q : Qsort} {W : List Process}

theorem report_eq (hos : os.Healthy) (hW : WellFormed W) (pids : ℕ → Int) {C : ℕ → ℕ}
    (hC : ∀ i < W.length, Policy.sjf.CompletesAt os q W i (C i)) :
    Policy.sjf.report os q W pids = chronicle (q.sort cmp W) pids C (makespan W) := by
  have hz : Policy.sjf.Fresh W := fun h => by cases h
  have hclock := Policy.filterMap_line_clock (P := .sjf) (q := q) hos hW hz rfl
    (f := Policy.sjf.line (q.sort cmp W) pids) (fun _ _ => rfl) (fun _ _ => rfl)
    (fun _ _ => rfl) (fun _ _ => rfl) hC
  have harrive : ∀ t, (forkMarks (q.sort cmp W) t).filterMap
      (Policy.sjf.line (q.sort cmp W) pids) = [] := by
    intro t
    rw [List.filterMap_eq_nil_iff]
    intro e he
    obtain ⟨i, -, rfl⟩ := List.mem_map.mp he
    rfl
  rw [Policy.report, Policy.summary, chronicle, q.length_sort, Policy.opening, List.append_nil]
  refine congrArg (.called :: ·) (hclock.trans (List.flatMap_congr fun t _ => ?_))
  exact (congrArg _ (harrive t)).trans (List.append_nil _)

/-- SJF with its children prints one and the same text in all orders of their
    steps. -/
theorem prints_completions (os : Os) (q : Qsort) (W : List Process) (hos : os.Healthy)
    (hW : WellFormed W) : ∃ pids : ℕ → Int, ∃ C : ℕ → ℕ,
      (∀ i < W.length, ∀ j < W.length, pids i = pids j → i = j) ∧
      (∀ i < W.length, Policy.sjf.CompletesAt os q W i (C i)) ∧
      ∀ ms w, Policy.sjf.Performs os q W ms w →
        (∀ c ∈ w.children ++ w.reaped, ∃ i < W.length, c.1 = pids i ∧
          c.2.state.name = (entry (q.sort cmp W) i).name) ∧
        Policy.sjf.output os ms <+:
          (chronicle (q.sort cmp W) pids C (makespan W)).map (fun x => (none, x)) ∧
        ((∀ v, ¬ ForkJoin.Step (Policy.sjf.printing os) w v) → Policy.sjf.output os ms =
          (chronicle (q.sort cmp W) pids C (makespan W)).map fun x => (none, x)) := by
  have hz : Policy.sjf.Fresh W := fun h => by cases h
  obtain ⟨pids, hprints⟩ := Policy.exists_prints (P := .sjf) (q := q) hos hW hz
  obtain ⟨C, hJ⟩ := Policy.exists_completesAt (P := .sjf) (q := q) hos hW hz
  have hC := (Policy.completesAt_iff hos hW hz).mpr hJ
  refine ⟨pids, C, hprints.inj, hC, fun ms w h => ⟨hprints.children ms w h, ?_⟩⟩
  rw [← report_eq hos hW pids hC]
  exact hprints.output_silent (fun _ _ => rfl) hos hW hz h

theorem prints_completions_readme : ∃ pids C ms w,
    Policy.sjf.Performs Os.counting Qsort.insertion readmeWorkload ms w ∧
      Policy.sjf.output Os.counting ms =
        (chronicle (Qsort.insertion.sort cmp readmeWorkload) pids C
          (makespan readmeWorkload)).map fun x => (none, x) := by
  obtain ⟨pids, C, -, -, hall⟩ := prints_completions Os.counting Qsort.insertion readmeWorkload
    Os.counting_healthy (by decide)
  obtain ⟨ms, w, h, hstuck⟩ := Policy.exists_performs_end (P := .sjf) (q := .insertion)
    Os.counting_healthy (W := readmeWorkload) (by decide) fun h => by cases h
  exact ⟨pids, C, _, w, h, (hall _ w h).2.2 hstuck⟩

end Sjf

/-! ## PSJF -/

namespace Psjf

/-- The pids of the children in the order of the arrivals in the table `V`. -/
def arrivals (V : List Process) (pids : ℕ → Int) (T : ℕ) : List Printf :=
  (List.range T).flatMap fun t : ℕ =>
    ((List.range V.length).filter fun i => (entry V i).ready = t).map fun i => .childPid (pids i)

variable {os : Os} {q : Qsort} {W : List Process}

theorem report_eq (hW : WellFormed W) (pids : ℕ → Int) :
    Policy.psjf.report os q W pids = arrivals W pids (makespan W) := by
  have hready : ∀ t, ((List.range W.length).filter fun i => (jobsOf W).release i = t) =
      (List.range W.length).filter fun i => (entry W i).ready = t := by
    intro t
    refine List.filter_congr fun i hi => ?_
    rw [← hW.release_eq (List.mem_range.mp hi)]
    simp only [Nat.cast_inj]
  rw [Policy.report, Policy.opening, Policy.summary, List.append_nil, List.nil_append,
    show Policy.psjf.table q W = W from rfl, filterMap_line, forkedOf_trace_clock, arrivals,
    List.map_flatMap]
  exact List.flatMap_congr fun t _ => congrArg _ (hready t)

/-- No pid is printed twice. -/
theorem report_nodup {pids : ℕ → Int}
    (hinj : ∀ i < W.length, ∀ j < W.length, pids i = pids j → i = j) :
    (Policy.psjf.report os q W pids).Nodup := by
  have hperm := forkedOf_trace W (Policy.psjf.ran os q W) Policy.psjf.delay (makespan W)
  have hmem : ∀ i ∈ forkedOf (trace W (Policy.psjf.ran os q W) Policy.psjf.delay (makespan W)),
      i < W.length := fun i hi =>
    List.mem_range.mp (List.mem_filter.mp (hperm.mem_iff.mp hi)).1
  rw [Policy.report, Policy.opening, Policy.summary, List.append_nil, List.nil_append,
    show Policy.psjf.table q W = W from rfl, filterMap_line]
  refine (hperm.nodup_iff.mpr (List.nodup_range.filter _)).map_on fun i hi j hj hij => ?_
  exact hinj i (hmem i hi) j (hmem j hj) (Printf.childPid.inj hij)

/-- The pid of a child is printed behind its fork. -/
theorem tells_fork (hos : os.Healthy) {pt pt' : Point State} {pid : Int} {c : Child}
    (h : ((body os).system os).parent pt = some (.fork pid c, pt')) :
    ∃ l, ((body os).voice (texts os) os).tells pt = .childPid pid :: l := by
  generalize hx : ForkJoin.Action.fork pid c = x at h
  cases Body.advanced (body_calls hos) hos h with
  | head s => cases hx
  | skip _ _ => cases hx
  | tail _ => cases hx
  | @fork i s p log hi hready hspawn =>
      obtain ⟨rfl, -⟩ := ForkJoin.Action.fork.inj hx
      have hpid := (body_writesPids hos).spawn _ _ _ _ _ _ hspawn
      simp only [Body.voice, if_pos hi, if_pos hready, hspawn, texts, hpid]
      exact ⟨_, rfl⟩

/-- PSJF can go through its loop without its children. -/
theorem exists_path_printing (hos : os.Healthy) (hW : WellFormed W) (hz : ZeroWaiting W) :
    ∃ ms w, Policy.psjf.Performs os q W ms w ∧
    (∀ v, ¬ ForkJoin.Step (Policy.psjf.printing os) w v) ∧ (∃ r, w.parent = ⟨.ended r, []⟩) ∧
    Path (Policy.psjf.printing os) ⟨(start os W).launch, []⟩
      (ForkJoin.deeds (Policy.psjf.printing os) ms) w.parent ∧
    ForkJoin.waits (ForkJoin.deeds (Policy.psjf.printing os) ms) = [] := by
  have hfresh : Policy.psjf.Fresh W := fun _ => hz
  have hS := (Policy.runs (P := .psjf) (q := q) hos hW hfresh).sane hos
  have hM := Child.measured (Policy.psjf.body os) os
  obtain ⟨acts, s, hpath, -⟩ := Policy.exists_path_end (P := .psjf) (q := q) hos hW hfresh
  obtain ⟨ms, w, h, hstuck⟩ := Policy.exists_performs_end (P := .psjf) (q := q) hos hW hfresh
  obtain ⟨hparent, -⟩ := ForkJoin.Trail.finished hS hM hpath rfl h hstuck
  refine ⟨ms, w, h, hstuck, ⟨_, hparent⟩, (h.tally (hS.printing _ _) (hM.printing _)).path, ?_⟩
  refine (ForkJoin.deeds_printing _ ms).2.trans ?_
  exact Body.waits_eq_nil (fun _ => rfl) h.speech.path

section

variable (hos : os.Healthy) (hW : WellFormed W) (hz : ZeroWaiting W) {pids : ℕ → Int}
  (hprints : Policy.psjf.Prints os q W pids)
include hos hW hz hprints

/-- A child that has exited has printed its two lines. -/
theorem heard_of_exited {ms : List Policy.psjf.Move} {w : Policy.psjf.Stage}
    (h : Policy.psjf.Performs os q W ms w) {i : ℕ} (hi : i < W.length)
    {c : ForkJoin.Kid Child Printf} (hc : (pids i, c) ∈ w.children)
    (hexit : c.step ((Policy.psjf.body os).system os) = none) :
    heard (some (pids i)) (Policy.psjf.output os ms) =
      [.child (entry W i).name, .finished (entry W i).name] := by
  have hfresh : Policy.psjf.Fresh W := fun _ => hz
  have hS := (Policy.runs (P := .psjf) (q := q) hos hW hfresh).sane hos
  have hM := Child.measured (Policy.psjf.body os) os
  obtain ⟨acts, s, hpath, -⟩ := Policy.exists_path_end (P := .psjf) (q := q) hos hW hfresh
  obtain ⟨k, hk, howed⟩ := h.owed hS hM (pids i, c) (List.mem_append_left _ hc)
  rw [(ForkJoin.Kid.step_eq_none hexit).2, List.append_nil] at howed
  -- in the end the lines are still the same
  obtain ⟨ms', w', h', hstuck⟩ := h.exists_end hos hW hfresh
  obtain ⟨-, -, -, hheard⟩ := ForkJoin.Trail.finished hS hM hpath rfl h' hstuck
  have hall := hheard (pids i, k) (by
    rw [ForkJoin.deeds_append, ForkJoin.forks_append]
    exact List.mem_append_left _ hk)
  exact howed.trans (hall.symm.trans (hprints.child _ w' h' hstuck i hi))

/-- A child can be at its end before its pid is printed. -/
theorem exists_child_first {i : ℕ} (hi : i < W.length) :
    ∃ ms w, Policy.psjf.Performs os q W ms w ∧
      heard (some (pids i)) (Policy.psjf.output os ms) =
        [.child (entry W i).name, .finished (entry W i).name] ∧
      .childPid (pids i) ∉ heard none (Policy.psjf.output os ms) := by
  have hfresh : Policy.psjf.Fresh W := fun _ => hz
  have hS := (Policy.runs (P := .psjf) (q := q) hos hW hfresh).sane hos
  have hM := Child.measured (Policy.psjf.body os) os
  obtain ⟨ms, w, h, hstuck, -, hpath, hwaits⟩ := exists_path_printing (q := q) hos hW hz
  have hmem : pids i ∈ (forks (ForkJoin.deeds (Policy.psjf.printing os) ms)).map Prod.fst := by
    by_contra hno
    have hnone := (h.unheard hS hM hno).symm.trans (hprints.child ms w h hstuck i hi)
    cases hnone
  obtain ⟨⟨p, k⟩, hk, hp⟩ := List.mem_map.mp hmem
  obtain rfl : p = pids i := hp
  -- the scheduler goes on to the fork, and the child to its exit
  obtain ⟨acts₁, b, b', rest, h₁, hfork, hsplit⟩ := hpath.exists_fork hk
  rw [hsplit, ForkJoin.waits_append, List.append_eq_nil_iff] at hwaits
  obtain ⟨ms₁, ht₁, -⟩ := (h₁.snoc hfork).trail_alone hwaits.1
  rw [ForkJoin.forks_append, ForkJoin.forks_fork] at ht₁
  obtain ⟨ms₂, k', ht₂, hexit⟩ := ht₁.run_child (hM.printing _)
  refine ⟨ms₁ ++ ms₂, _, ht₂, heard_of_exited hos hW hz hprints ht₂ hi (by simp) hexit, ?_⟩
  -- what the scheduler prints next is the pid
  obtain ⟨x, l, -, hquiet, -⟩ | ⟨x, -, hx, hmap, htodo⟩ := ForkJoin.printing_parent hfork
  · cases hquiet
  cases x with
  | fork p' d =>
      obtain ⟨rfl, -⟩ := ForkJoin.Action.fork.inj hmap
      obtain ⟨l, hl⟩ := tells_fork hos hx
      obtain ⟨place, todo⟩ := b'
      obtain rfl : todo = .childPid (pids i) :: l := htodo.trans hl
      have ht₃ : Policy.psjf.Performs os q W (ms₁ ++ ms₂ ++ [.parent ⟨place, _⟩]) _ :=
        ht₂.step (.quiet rfl)
      have hpre := hprints.heard_prefix hos hW hfresh ht₃
      rw [Policy.output_append, ForkJoin.heard_append] at hpre
      have hnodup := (report_nodup hprints.inj).sublist hpre.sublist
      rw [List.nodup_append] at hnodup
      exact fun hin => hnodup.2.2 _ hin _ (List.mem_singleton_self _) rfl
  | _ => cases hmap

/-- The scheduler can be at its end before a child has begun. -/
theorem exists_scheduler_first : ∃ ms w r, Policy.psjf.Performs os q W ms w ∧
    w.parent = ⟨.ended r, []⟩ ∧
    heard none (Policy.psjf.output os ms) = Policy.psjf.report os q W pids ∧
    ∀ p, heard (some p) (Policy.psjf.output os ms) = [] := by
  obtain ⟨ms, w, h, hstuck, ⟨r, hparent⟩, hpath, hwaits⟩ := exists_path_printing (q := q) hos hW hz
  obtain ⟨ms', h', -, hno⟩ := hpath.trail_alone hwaits
  refine ⟨ms', _, r, h', hparent, ?_, fun p => ?_⟩
  · -- the lines up to the end are those of every order
    have hspeech := h.speech
    have hspeech' := h'.speech
    rw [hparent, List.append_nil] at hspeech hspeech'
    have hlen := Nat.le_antisymm (hspeech.path.prefix_of_end rfl hspeech'.path).length_le
      (hspeech'.path.prefix_of_end rfl hspeech.path).length_le
    rw [← hprints.parent ms w h hstuck]
    exact (hspeech'.unique hspeech hlen).1
  · rw [List.eq_nil_iff_forall_not_mem]
    intro x hx
    obtain ⟨c, hc⟩ := ForkJoin.exists_child_of_heard hx
    exact hno p c hc

end

/-- PSJF prints the pids of its children in the order of their arrivals, and every
    child two lines; but nothing puts these in an order.  A child can be at the
    end of its lines before the scheduler prints its pid, and the scheduler can be
    at its end before any child has printed anything. -/
theorem prints_in_any_order (os : Os) (q : Qsort) (W : List Process) (hos : os.Healthy)
    (hW : WellFormed W) (hz : ZeroWaiting W) : ∃ pids : ℕ → Int,
      (∀ i < W.length, ∀ j < W.length, pids i = pids j → i = j) ∧
      (∀ ms w, Policy.psjf.Performs os q W ms w →
        (∀ c ∈ w.children ++ w.reaped, ∃ i < W.length, c.1 = pids i ∧
          c.2.state.name = (entry W i).name) ∧
        heard none (Policy.psjf.output os ms) <+: arrivals W pids (makespan W)) ∧
      (∀ i < W.length, ∃ ms w, Policy.psjf.Performs os q W ms w ∧
        heard (some (pids i)) (Policy.psjf.output os ms) =
          [.child (entry W i).name, .finished (entry W i).name] ∧
        .childPid (pids i) ∉ heard none (Policy.psjf.output os ms)) ∧
      ∃ ms w r, Policy.psjf.Performs os q W ms w ∧ w.parent = ⟨.ended r, []⟩ ∧
        heard none (Policy.psjf.output os ms) = arrivals W pids (makespan W) ∧
        ∀ p, heard (some p) (Policy.psjf.output os ms) = [] := by
  obtain ⟨pids, hprints⟩ := Policy.exists_prints (P := .psjf) (q := q) hos hW fun _ => hz
  have hreport : Policy.psjf.report os q W pids = arrivals W pids (makespan W) := report_eq hW pids
  refine ⟨pids, hprints.inj, fun ms w h => ⟨hprints.children ms w h, ?_⟩,
    fun i hi => exists_child_first hos hW hz hprints hi, ?_⟩
  · rw [← hreport]
    exact hprints.heard_prefix hos hW (fun _ => hz) h
  · rw [← hreport]
    exact exists_scheduler_first hos hW hz hprints

theorem prints_in_any_order_readme : ∃ pids : ℕ → Int,
    ∀ i < readmeWorkload.length, ∃ ms w,
      Policy.psjf.Performs Os.counting Qsort.insertion readmeWorkload ms w ∧
      heard (some (pids i)) (Policy.psjf.output Os.counting ms) =
        [.child (entry readmeWorkload i).name, .finished (entry readmeWorkload i).name] ∧
      .childPid (pids i) ∉ heard none (Policy.psjf.output Os.counting ms) := by
  obtain ⟨pids, -, -, hfirst, -⟩ := prints_in_any_order Os.counting Qsort.insertion readmeWorkload
    Os.counting_healthy (by decide) (by decide)
  exact ⟨pids, hfirst⟩

end Psjf
end ProcSched
