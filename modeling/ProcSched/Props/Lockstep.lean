/-
  ProcSched.Props.Lockstep

  What the policies set with `sched_setscheduler` are for.  If the children's
  core always runs the child that is not at `SCHED_IDLE`, then under FIFO, SJF
  and RR the counters of the table are those of the children: each child has as
  many units left as its entry says, and the scheduler never waits for a child
  that still has units.
-/

import Mathlib.Logic.Relation
import ProcSched.Props.Foreground
import ProcSched.Props.Interleaving

namespace ProcSched

open ForkJoin (Action forks waits)

/-- A unit of time on the children's core, by the policies set so far: a child at
    `SCHED_IDLE` does not get any of it. -/
def Log.tick (log : Log) (c : Int × Child) : Int × Child :=
  if log.policy c.1 = some .idle then c else (c.1, c.2.step.getD c.2)

namespace Body

variable {σ : Type}

/-- At the piece of the loop body with `time_unit()` in it. -/
def AtUnit (B : Body σ) : Point σ → Prop
  | .scan i s => (B.proc s).length ≤ i
  | _ => False

/-- A step in which the children's core keeps time with the scheduler. -/
inductive InStep (B : Body σ) (os : Os) :
    ForkJoin.World (Point σ) Child Int → ForkJoin.World (Point σ) Child Int → Prop
  /-- the scheduler on its way to its next unit of time -/
  | own {a cs rs w'} (h : ForkJoin.Move (B.system os) (.parent a) ⟨a, cs, rs⟩ w')
      (hunit : ¬ B.AtUnit a) : InStep B os ⟨a, cs, rs⟩ w'
  /-- a unit of time of everybody -/
  | unit {a b cs rs} (h : B.advance os a = some (.quiet, b)) (hunit : B.AtUnit a) :
      InStep B os ⟨a, cs, rs⟩ ⟨b, cs.map (B.logAt b).tick, rs⟩
  /-- a child that has counted all its units exits -/
  | exit {a p c c' l r rs} (h : c.step = some c') (hall : ¬ c.i < c.exec) :
      InStep B os ⟨a, l ++ (p, c) :: r, rs⟩ ⟨a, l ++ (p, c') :: r, rs⟩

/-- The worlds that are reached in step. -/
def Lockstep (B : Body σ) (os : Os) (a : Point σ) (w : ForkJoin.World (Point σ) Child Int) :
    Prop :=
  Relation.ReflTransGen (B.InStep os) ⟨a, [], []⟩ w

variable {B : Body σ} {os : Os} {a : Point σ} {w : ForkJoin.World (Point σ) Child Int}

/-- Keeping time is one of the orders in which the steps can be made. -/
theorem Lockstep.run (h : B.Lockstep os a w) : ∃ n, ForkJoin.Run (B.system os) a n w := by
  induction h with
  | refl => exact ⟨0, ForkJoin.Run.start⟩
  | tail _ hs ih =>
      obtain ⟨n, hn⟩ := ih
      cases hs with
      | own h _ => exact ⟨n + 1, hn.step ⟨_, h⟩⟩
      | unit h _ =>
          refine (hn.step ⟨_, .quiet h⟩).map_children fun c _ => ?_
          rw [Log.tick]
          split
          · exact Or.inl rfl
          · cases hc : c.2.step with
            | none => exact Or.inl rfl
            | some c' => exact Or.inr ⟨rfl, hc⟩
      | exit h _ => exact ⟨n + 1, hn.step ⟨_, .child h⟩⟩

/-- The scheduler is never held up, unless by a child that still has units. -/
theorem exists_inStep (hend : ∀ o, w.parent ≠ .ended o)
    (hprompt : ∀ s pid, w.parent = .top s → B.waits s = some pid →
      ∃ c ∈ w.children, c.1 = pid ∧ c.2.i = c.2.exec) : ∃ w', B.InStep os w w' := by
  obtain ⟨a, cs, rs⟩ := w
  cases a with
  | ended o => exact absurd rfl (hend o)
  | top s =>
      have hadv : B.advance os (.top s) = some _ := rfl
      cases hw : B.waits s with
      | none =>
          rw [hw] at hadv
          exact ⟨_, .own (.quiet hadv) id⟩
      | some pid =>
          rw [hw] at hadv
          obtain ⟨⟨pid', c⟩, hmem, rfl, hall⟩ := hprompt s pid rfl hw
          obtain ⟨l, r, rfl⟩ := List.append_of_mem hmem
          cases hc : c.step with
          | none => exact ⟨_, .own (.wait hadv hc) id⟩
          | some c' => exact ⟨_, .exit hc (Int.not_lt.mpr hall.ge)⟩
  | scan i s =>
      by_cases hunit : B.AtUnit (.scan i s)
      · have hadv : B.advance os (.scan i s) = some (.quiet, _) := if_neg (Nat.not_lt.mpr hunit)
        exact ⟨_, .unit hadv hunit⟩
      · have hi : i < (B.proc s).length := Nat.lt_of_not_le hunit
        have hadv : B.advance os (.scan i s) = _ := if_pos hi
        split_ifs at hadv with hready hfork
        · exact ⟨_, .own (.fork hadv) hunit⟩
        · exact ⟨_, .own (.quiet hadv) hunit⟩
        · exact ⟨_, .own (.quiet hadv) hunit⟩

end Body

namespace Loop

/-- Every child has as many units left as the entry with its pid says; the entry
    has been forked at an earlier clock, or at this one in front of index `i`. -/
def Mirrors (s : State) (i : ℕ) (cs : List (Int × Child)) : Prop :=
  ∀ c ∈ cs, ∃ j < s.proc.length, (entry s.proc j).pid = c.1 ∧
    (entry s.proc j).exec = c.2.exec - c.2.i ∧
    ((entry s.proc j).ready < s.now ∨ (entry s.proc j).ready = s.now ∧ j < i)

/-- The same wherever the scheduler is. -/
def MirroredAt : Point State → List (Int × Child) → Prop
  | .top s, cs => Mirrors s 0 cs
  | .scan i s, cs => Mirrors s i cs
  | .ended _, _ => True

variable {d : Discipline} {os : Os} {W : List Process} {law : ChoiceLaw} {front : SchedPolicy}
  {s s' t : State} {i : ℕ} {a b : Point State} {x : Action Int Child} {cs cs' : List (Int × Child)}

/-- It is about pids and units left only. -/
theorem MirroredAt.of_forall (h : MirroredAt a cs) (hsub : ∀ c ∈ cs', ∃ e ∈ cs, e.1 = c.1 ∧
    e.2.exec - e.2.i = c.2.exec - c.2.i) : MirroredAt a cs' := by
  cases a with
  | ended o => trivial
  | top s | scan i s =>
      intro c hc
      obtain ⟨e, he, hpid, hleft⟩ := hsub c hc
      obtain ⟨j, hj⟩ := h e he
      rw [hpid, hleft] at hj
      exact ⟨j, hj⟩

theorem entry_set {proc : List Process} {p : Process} {j : ℕ} (hj : j < proc.length) :
    entry (proc.set i p) j = if i = j then p else entry proc j := by
  rw [entry_eq_getElem (by rw [List.length_set]; exact hj), entry_eq_getElem hj, List.getElem_set]

/-- A new child has all the units of its entry, and the older children keep
    theirs. -/
theorem Mirrors.fork (h : Mirrors t i cs) (hi : i < t.proc.length)
    (hready : (entry t.proc i).ready = t.now) (pid : Int) (log : Log) :
    Mirrors { t with proc := t.proc.set i { entry t.proc i with pid := pid }, log := log } (i + 1)
      (cs ++ [(pid, (entry t.proc i).child)]) := by
  intro c hc
  rcases List.mem_append.mp hc with hc | hc
  · obtain ⟨j, hj, hpid, hexec, hearly⟩ := h c hc
    have hne : i ≠ j := by
      rintro rfl
      omega
    refine ⟨j, by rw [List.length_set]; exact hj, ?_⟩
    rw [entry_set hj, if_neg hne]
    exact ⟨hpid, hexec, hearly.imp_right fun he => ⟨he.1, Nat.lt_succ_of_lt he.2⟩⟩
  · rw [List.mem_singleton.mp hc]
    refine ⟨i, by rw [List.length_set]; exact hi, ?_⟩
    rw [entry_set hi, if_pos rfl]
    exact ⟨rfl, (Int.sub_zero _).symm, Or.inr ⟨hready, Nat.lt_succ_self i⟩⟩

/-- Between two units of time the scheduler only adds children. -/
theorem MirroredAt.advance (h : MirroredAt a cs) (hd : d.Obeys os W law) (hc : d.Calls os front)
    (hos : os.Healthy) (hadv : (d.body os).advance os a = some (x, b))
    (hunit : ¬ (d.body os).AtUnit a) : MirroredAt b (cs ++ forks [x]) := by
  cases a with
  | top s =>
      simp only [Body.advance, Option.some.injEq, Prod.mk.injEq] at hadv
      obtain ⟨hx, rfl⟩ := hadv
      obtain ⟨hproc, hnow, -⟩ := (body_calls hd hc).head s
      have hnone : forks [x] = [] := by
        rw [← hx]
        cases (d.body os).waits s <;> rfl
      rw [hnone, List.append_nil]
      cases hhead : (d.body os).head s with
      | next s₁ =>
          rw [hhead, Outcome.state_next] at hproc hnow
          intro c hmem
          obtain ⟨j, hj⟩ := h c hmem
          have hproc : s₁.proc = s.proc := hproc
          have hnow : s₁.now = s.now := hnow
          refine ⟨j, ?_⟩
          rw [hproc, hnow]
          exact hj
      | _ => trivial
  | scan i t =>
      have hi : i < ((d.body os).proc t).length := Nat.lt_of_not_le hunit
      by_cases hready : (entry ((d.body os).proc t) i).ready = (d.body os).now t
      · obtain ⟨pid, new, hspawn, -⟩ := hd.spawns t.now i (entry t.proc i) t.log
        have hpid := (hc.spawn _ _ _ _ _ _ hspawn).1
        have hspawn' : (d.body os).spawn ((d.body os).now t) i (entry ((d.body os).proc t) i)
            ((d.body os).log t) = .ok ({ entry t.proc i with pid := pid }, t.log ++ new) := hspawn
        simp only [Body.advance, if_pos hi, if_pos hready, if_pos (hos.fork_pos _), hspawn',
          Option.some.injEq, Prod.mk.injEq] at hadv
        obtain ⟨rfl, rfl⟩ := hadv
        rw [ForkJoin.forks_fork, ← show pid = os.fork ((d.body os).log t) from hpid]
        exact Mirrors.fork h hi hready pid _
      · simp only [Body.advance, if_pos hi, if_neg hready, Option.some.injEq,
          Prod.mk.injEq] at hadv
        obtain ⟨rfl, rfl⟩ := hadv
        rw [ForkJoin.forks_quiet, List.append_nil]
        intro c hmem
        obtain ⟨j, hj, hpid, hexec, hearly⟩ := h c hmem
        exact ⟨j, hj, hpid, hexec, hearly.imp_right fun he => ⟨he.1, Nat.lt_succ_of_lt he.2⟩⟩
  | ended o => cases hadv

/-- In the unit of time the child in front counts, as the table does. -/
theorem Mirrors.unit {σ : Schedule ℕ} {k : ℕ} {E : List (ℕ × ℕ)} (h : Mirrors s i cs)
    (hfront : front ≠ .idle) (hproc : s'.proc = s.proc) (hnow : s'.now = s.now)
    (hone : s'.OneInFront front) (hliving : ∀ c ∈ cs, s'.log.Living c.1)
    (hcounts : ∀ c ∈ cs, c.2.Counts) (hchild : Children (Arrived W (k + 1)) E s'.proc s'.log)
    (hW : WellFormed W) (htracks : Tracks W σ k s.proc) (hk : s.now = k)
    (hrun : ∀ r, s'.running = some r → (jobsOf W).Eligible σ k r) :
    Mirrors s'.unit 0 (cs.map s'.unit.log.tick) := by
  obtain ⟨-, hnow', -, -, -, hproc'⟩ := unit_spec s'
  intro c' hc'
  obtain ⟨c, hc, rfl⟩ := List.mem_map.mp hc'
  obtain ⟨j, hj, hpid, hexec, hearly⟩ := h c hc
  have hpolicy : s'.unit.log.policy c.1 = s'.log.policy c.1 := by
    rw [State.unit]
    cases s'.running <;> simp
  have hj' : j < s'.unit.proc.length := by
    rw [hproc', hproc]
    cases s'.running with
    | none => exact hj
    | some r => rwa [Option.elim_some, List.length_modify]
  refine ⟨j, hj', ?_⟩
  rw [unit_pid, hproc, hpid, hnow', hnow]
  cases hr : s'.running with
  | none => exact absurd (hliving c hc) (hone.idle hr c.1)
  | some r =>
      have hel := hrun r hr
      have hrW := mem_jobsOf.mp hel.mem
      have hentry : entry s'.unit.proc j =
          if j = r then { entry s.proc j with exec := (entry s.proc j).exec - 1 }
          else entry s.proc j := by
        rw [hproc', hr, Option.elim_some, hproc, entry_modify hj]
      rw [hentry, Log.tick, hpolicy]
      by_cases hjr : j = r
      · -- the child in front has a unit left, and counts it
        subst hjr
        have hfrontpid := (hone.front j hr).2
        rw [hproc, hpid] at hfrontpid
        have hne : (entry s.proc j).exec ≠ 0 :=
          (htracks.exec_ne_zero_iff hW hrW hel.unfinished.le).mpr hel.unfinished
        obtain ⟨-, hle, hexited⟩ := hcounts c hc
        have hlt : c.2.i < c.2.exec := by omega
        have hon : c.2.exited = false := by
          by_contra he
          have := hexited (by simpa using he)
          omega
        rw [if_pos rfl, if_neg (by rw [hfrontpid]; exact fun he => hfront (Option.some.inj he)),
          Child.step, hon, if_neg Bool.false_ne_true, if_pos hlt, Option.getD_some]
        exact ⟨rfl, by simp only; omega, Or.inl (by simp only; omega)⟩
      · -- everybody else is at `SCHED_IDLE`
        have harrived : Arrived W (k + 1) j := by
          have hjW : j < W.length := by rwa [← htracks.length_eq]
          have hrel := hW.release_eq hjW
          have hready := htracks.ready_eq j hjW
          exact ⟨hjW, by omega⟩
        have hother : c.1 ≠ (entry s'.proc r).pid := by
          rw [← hpid, ← hproc]
          exact fun he => hjr (hchild.inj j r harrived
            ⟨hrW, Nat.lt_succ_of_le hel.released⟩ he)
        rw [if_neg hjr, if_pos (hone.back r hr c.1 (hliving c hc) hother)]
        exact ⟨rfl, hexec, Or.inl (by omega)⟩

section Runs

variable {o : Outcome State} {log : Log} {w : ForkJoin.World (Point State) Child Int}
  (hd : d.Obeys os W law) (hc : d.Calls os front) (hos : os.Healthy) (hW : WellFormed W)
  (hlog : Bare log) (ho : o = .next (State.initial W log))
  (hpid : ∀ log, os.fork log ≠ os.outside) (hfront : front ≠ .idle)
include hd hc hos hW hlog ho hpid hfront

/-- The piece with the unit of time. -/
theorem MirroredAt.unit {n : ℕ} {rs : List (Int × Child)} (h : MirroredAt a cs)
    (hrun : ForkJoin.Run ((d.body os).system os) o.launch n ⟨a, cs, rs⟩)
    (hadv : (d.body os).advance os a = some (x, b)) (hunit : (d.body os).AtUnit a) :
    MirroredAt b (cs.map ((d.body os).logAt b).tick) := by
  have hR := body_runs hd hc hW hlog ho
  obtain ⟨acts, ht⟩ := hrun.tally (hR.sane hos) (Child.measured _ os)
  obtain ⟨hat, -⟩ := hR.path_at hos ht.path
  cases a with
  | top s => exact absurd hunit id
  | ended o => exact absurd hunit id
  | scan i t =>
      obtain ⟨k, s, s₁, hs, hhead, hscan⟩ := hat
      -- the whole table has been scanned
      have hi : i = ((d.body os).proc s₁).length :=
        Nat.le_antisymm hscan.le (by rw [← hscan.length_eq (body_lawful d os)]; exact hunit)
      have harr : d.arrive os s = .next t := by
        rw [hi] at hscan
        have hforked := hscan.scan_eq
        refine Outcome.bind_eq_next.mpr ⟨s₁, hhead, ?_⟩
        rw [← hforked, Body.scan, Discipline.forkReady]
        rfl
      rw [funext (body_step d os)] at hs
      obtain ⟨hI, hB⟩ := inv_of_next hd hW hlog.marks ho hs
      have hC := atChoice_of_arrive hd hW hlog.marks ho hs harr
      obtain ⟨o', s', hswitch, hadm, hrunning, hproc, hnow, -⟩ := contextSwitch_spec hd hC
      have hone := one_in_front hd hc hW hlog ho hpid hs
        (Outcome.bind_eq_next.mpr ⟨t, harr, hswitch⟩)
      have hchild := (children_of_next hd hc hW hlog ho k s hs).beforeUnit hd hc hW hI hB harr
        hswitch
      have hsame := contextSwitch_same hc hd.wakeup t
      rw [hswitch, Outcome.state_next] at hsame
      have htail : (d.body os).tail t = .next s'.unit := by
        show (d.contextSwitch os t).bind (fun s => .next s.unit) = .next s'.unit
        rw [hswitch, Outcome.bind_next]
      simp only [Body.advance, if_neg (Nat.not_lt.mpr hunit), htail, Option.some.injEq,
        Prod.mk.injEq] at hadv
      obtain ⟨-, rfl⟩ := hadv
      refine Mirrors.unit h hfront hproc hnow hone (fun c hmem => ?_) (fun c hmem => ?_) hchild hW
        hC.tracks hC.now fun r hr => hadm.eligible r (hrunning.symm.trans hr)
      · obtain ⟨hforked, hnot⟩ := (hR.mem_children hos hrun).mp (List.mem_map_of_mem hmem)
        rw [Log.Living, hsame.forked, hsame.reaped]
        exact ⟨hforked, hnot⟩
      · exact hR.counts hos hW hrun c (List.mem_append_left _ hmem)

/-- In step, the children are as the table says. -/
theorem mirrored (h : (d.body os).Lockstep os o.launch w) : MirroredAt w.parent w.children := by
  induction h with
  | refl =>
      rw [ho]
      exact fun c hmem => absurd hmem List.not_mem_nil
  | tail h hs ih =>
      cases hs with
      | own hs hunit =>
          have hnext := fun {x b} => ih.advance (x := x) (b := b) hd hc hos
          cases hs with
          | quiet hx => simpa using hnext hx hunit
          | fork hx => exact hnext hx hunit
          | wait hx hcend =>
              refine (hnext hx hunit).of_forall fun c hmem => ⟨c, ?_, rfl, rfl⟩
              simp only [ForkJoin.forks_wait, List.append_nil, List.mem_append,
                List.mem_cons] at hmem ⊢
              tauto
          | waitFail hx hno => simpa using hnext hx hunit
      | unit hx hunit =>
          obtain ⟨n, hn⟩ := Body.Lockstep.run h
          exact ih.unit hd hc hos hW hlog ho hpid hfront hn hx hunit
      | @exit a p c c' l r rs hx hall =>
          obtain ⟨-, ⟨hlt, -⟩ | ⟨-, rfl⟩⟩ := Child.step_cases hx
          · exact absurd hlt hall
          · refine ih.of_forall fun e hmem => ?_
            rcases List.mem_append.mp hmem with hl | hr
            · exact ⟨e, List.mem_append_left _ hl, rfl, rfl⟩
            · rcases List.mem_cons.mp hr with rfl | hr
              · exact ⟨(p, c), by simp, rfl, rfl⟩
              · exact ⟨e, List.mem_append_right _ (List.mem_cons_of_mem _ hr), rfl, rfl⟩

/-- In step, a child that is waited for has no units left. -/
theorem exists_waited {s : State} {cs rs : List (Int × Child)} {pid : Int}
    (h : (d.body os).Lockstep os o.launch ⟨.top s, cs, rs⟩)
    (hw : (d.body os).waits s = some pid) : ∃ c ∈ cs, c.1 = pid ∧ c.2.i = c.2.exec := by
  have hR := body_runs hd hc hW hlog ho
  have hmirror := mirrored hd hc hos hW hlog ho hpid hfront h
  obtain ⟨n, hn⟩ := h.run
  obtain ⟨acts, ht⟩ := hn.tally (hR.sane hos) (Child.measured _ os)
  obtain ⟨⟨k, hs⟩, -⟩ := hR.path_at hos ht.path
  -- the pid is that of a living child
  obtain ⟨c, hmem, rfl⟩ := List.mem_map.mp
    ((hR.mem_children hos hn).mpr (hR.waited k s pid hs hw))
  refine ⟨c, hmem, rfl, ?_⟩
  obtain ⟨j, hj, hjpid, hexec, hearly⟩ := hmirror c hmem
  rw [funext (body_step d os)] at hs
  obtain ⟨hI, hB⟩ := inv_of_next hd hW hlog.marks ho hs
  have hchild := children_of_next hd hc hW hlog ho k s hs
  obtain ⟨r, hr, hzero, hrpid⟩ := waits_eq_some hw
  have harrived : Arrived W k j := by
    have hjW : j < W.length := by rwa [← hI.tracks.length_eq]
    have hrel := hW.release_eq hjW
    have hready := hI.tracks.ready_eq j hjW
    have hnow := hI.now
    exact ⟨hjW, by omega⟩
  obtain rfl := hchild.inj j r harrived (hB.prev_released (hI.running.symm.trans hr))
    (hjpid.trans hrpid)
  omega

/-- Both of it at the top of an iteration. -/
theorem mirrored_top (h : (d.body os).Lockstep os o.launch w) :
    (∀ s, w.parent = .top s → ∀ c ∈ w.children, ∃ j < s.proc.length,
      (entry s.proc j).pid = c.1 ∧ (entry s.proc j).exec = c.2.exec - c.2.i) ∧
    ∀ s pid, w.parent = .top s → (d.body os).waits s = some pid →
      ∃ c ∈ w.children, c.1 = pid ∧ c.2.i = c.2.exec := by
  obtain ⟨a, cs, rs⟩ := w
  constructor
  · rintro s rfl c hmem
    obtain ⟨j, hj, hjpid, hexec, -⟩ := mirrored hd hc hos hW hlog ho hpid hfront h c hmem
    exact ⟨j, hj, hjpid, hexec⟩
  · rintro s pid rfl hw
    exact exists_waited hd hc hos hW hlog ho hpid hfront h hw

end Runs

end Loop

namespace Policy

variable {P : Policy} {os : Os} {q : Qsort} {W : List Process} {w : P.World}

/-- The worlds a scheduler and its children reach in step. -/
def Lockstep (P : Policy) (os : Os) (q : Qsort) (W : List Process) (w : P.World) : Prop :=
  (P.body os).Lockstep os (P.start os q W).launch w

/-- At the top of an iteration every child has as many units left as the entry
    with its pid says. -/
def Mirrored (P : Policy) (w : P.World) : Prop :=
  ∀ s, w.parent = .top s → ∀ c ∈ w.children, ∃ j < (P.snapshot s).proc.length,
    (entry (P.snapshot s).proc j).pid = c.1 ∧
      (entry (P.snapshot s).proc j).exec = c.2.exec - c.2.i

/-- A child the scheduler is about to wait for has no units left. -/
def Prompt (P : Policy) (os : Os) (w : P.World) : Prop :=
  ∀ s pid, w.parent = .top s → (P.body os).waits s = some pid →
    ∃ c ∈ w.children, c.1 = pid ∧ c.2.i = c.2.exec

theorem Lockstep.mirrored (hos : os.Healthy) (hout : ∀ log, os.fork log ≠ os.outside)
    (hW : WellFormed W) (hP : P ≠ psjf) (h : P.Lockstep os q W w) :
    P.Mirrored w ∧ P.Prompt os w := by
  have hT := P.table_wellFormed (q := q) hW
  cases P with
  | fifo =>
      obtain ⟨log, hlog, hstart⟩ := Fifo.start_ok hos q W
      have hd := Fifo.obeys hos hT (table_sorted hW (by decide))
      exact Loop.mirrored_top hd (Fifo.calls hos) hos hT hlog hstart hout (by decide) h
  | sjf =>
      obtain ⟨log, hlog, hstart⟩ := Sjf.start_ok hos q W
      exact Loop.mirrored_top (Sjf.obeys hos hT) (Sjf.calls hos) hos hT hlog hstart hout
        (by decide) h
  | rr =>
      obtain ⟨log, hlog, hstart⟩ := Rr.start_ok hos q W
      exact Loop.mirrored_top (Rr.obeys hos hT) (Rr.calls hos) hos hT hlog hstart hout
        (by decide) h
  | psjf => exact absurd rfl hP

end Policy

/-- FIFO, SJF and RR with their children, the children's core giving its time to
    the child in the foreground only, and no child having the pid that stands in
    front of the table.  The table and the children then agree on the units that
    are left, a child is waited for when all it has to do is `exit(0)`, and they go
    on like that until the scheduler and all its children have ended. -/
theorem lockstep_mirrors (P : Policy) (os : Os) (q : Qsort) (W : List Process)
    (hos : os.Healthy) (hout : ∀ log, os.fork log ≠ os.outside) (hW : WellFormed W)
    (hP : P ≠ .psjf) (w : P.World) (h : P.Lockstep os q W w) :
    (∃ n, P.Interleaving os q W n w) ∧ P.Mirrored w ∧ P.Prompt os w ∧
      ((∃ o, w.parent = .ended o) ∧ w.children = [] ∨ ∃ w', (P.body os).InStep os w w') := by
  obtain ⟨n, hn⟩ := Body.Lockstep.run h
  obtain ⟨hmirror, hprompt⟩ := h.mirrored hos hout hW hP
  refine ⟨⟨n, hn⟩, hmirror, hprompt, ?_⟩
  by_cases hend : ∃ o, w.parent = .ended o
  · obtain ⟨o, ho⟩ := hend
    exact Or.inl ⟨⟨o, ho⟩, Policy.Interleaving.children_eq_nil hos hW hP hn ho⟩
  · exact Or.inr (Body.exists_inStep (fun o ho => hend ⟨o, ho⟩) hprompt)

/-- Two children at the end of an iteration, one of which has counted a unit. -/
theorem lockstep_mirrors_pair : ∃ w,
    Policy.sjf.Lockstep Os.counting Qsort.insertion
        (cleanTable [⟨"P1", 0, 2⟩, ⟨"P2", 0, 3⟩]) w ∧
      (∃ s, w.parent = .top s) ∧ w.children.map (fun c => c.2.exec - c.2.i) = [1, 3] ∧
      Policy.sjf.Mirrored w := by
  have h : ∃ w, Policy.sjf.Lockstep Os.counting Qsort.insertion
      (cleanTable [⟨"P1", 0, 2⟩, ⟨"P2", 0, 3⟩]) w ∧ (∃ s, w.parent = .top s) ∧
        w.children.map (fun c => c.2.exec - c.2.i) = [1, 3] := by
    -- to the scan, the two forks, and the unit
    refine ⟨_, .tail (.tail (.tail (.tail .refl (.own (.quiet rfl) id))
      (.own (.fork rfl) (Nat.not_le.mpr ?_))) (.own (.fork rfl) (Nat.not_le.mpr ?_)))
      (.unit rfl ?_), ⟨_, rfl⟩, rfl⟩
    · exact (Nat.zero_lt_two : 0 < 2)
    · exact (Nat.one_lt_two : 1 < 2)
    · exact Nat.le_refl 2
  obtain ⟨w, hw, htop, hleft⟩ := h
  exact ⟨w, hw, htop, hleft, (lockstep_mirrors .sjf Os.counting Qsort.insertion _
    Os.counting_healthy Os.counting_outside (by decide) (by decide) w hw).2.1⟩

end ProcSched
