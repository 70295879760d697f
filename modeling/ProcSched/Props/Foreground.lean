/-
  ProcSched.Props.Foreground

  Who has which policy while a unit of time is spent.  FIFO and RR wake the next
  process up and block the one it replaces, SJF raises the next one and never
  replaces anybody; on all paths one child is in the foreground, and every other
  living one at `SCHED_IDLE`.
-/

import ProcSched.Refine.Calls

namespace ProcSched

/-- A living child: forked and not waited for. -/
def Log.Living (log : Log) (pid : Int) : Prop :=
  pid ∈ log.forked ∧ pid ∉ log.reaped.map Prod.snd

/-- One living child is in the foreground, or there is none. -/
structure Loop.State.OneInFront (front : SchedPolicy) (s : Loop.State) : Prop where
  front : ∀ r, s.running = some r → s.log.Living (entry s.proc r).pid ∧
    s.log.policy (entry s.proc r).pid = some front
  back : ∀ r, s.running = some r → ∀ pid, s.log.Living pid → pid ≠ (entry s.proc r).pid →
    s.log.policy pid = some .idle
  idle : s.running = none → ∀ pid, ¬ s.log.Living pid

namespace Loop

variable {d : Discipline} {os : Os} {W : List Process} {law : ChoiceLaw} {front : SchedPolicy}
  {σ : Schedule ℕ} {k : ℕ}

/-- The living children are the arrived entries with units left. -/
theorem Children.living_iff {F : ℕ → Prop} {proc : List Process} {log : Log}
    (h : Children F (endings W σ (k + 1)) proc log) (hW : WellFormed W)
    (hF : ∀ i, F i ↔ Arrived W (k + 1) i) (hB : Before W law σ k) {i : ℕ} (hi : F i) :
    log.Living (entry proc i).pid ↔ Unfinished W σ k i := by
  have hi' := (hF i).mp hi
  rw [Log.Living, and_iff_right ((h.mem_iff _).mpr ⟨i, hi, rfl⟩), h.reaped]
  simp only [List.map_map, List.mem_map, Function.comp_apply, Prod.exists, not_exists, not_and]
  constructor
  · intro hno
    by_contra hdone
    -- without units left it has ended, so it has been waited for
    obtain ⟨c, hc, hend⟩ := Jobs.exists_ended (hW.jobs_length_pos hi'.1) (Nat.le_of_not_lt hdone)
    exact hno c i (mem_endings.mpr ⟨Nat.lt_succ_of_le hc, hend⟩) rfl
  · intro hunf c j he heq
    obtain ⟨hc, hend⟩ := mem_endings.mp he
    have harrived := endings_arrived hB _ he
    have hj := (hF j).mpr ⟨harrived.1, Nat.lt_succ_of_lt harrived.2⟩
    -- the pid tells the entry, and an entry that has ended has no units left
    obtain rfl := h.inj j i hj hi heq
    have hle := (Jobs.ended_eq_some.mp hend).2
    have hmono := Schedule.served_le_served (σ := σ) j (Nat.le_of_lt_succ hc)
    rw [Unfinished] at hunf
    omega

/-- In every iteration that comes to its unit of time, one living child is in the
    foreground. -/
theorem one_in_front {o : Outcome State} (hd : d.Obeys os W law) (hc : d.Calls os front)
    (hW : WellFormed W) {log : Log} (hlog : Bare log) (ho : o = .next (State.initial W log))
    (hpid : ∀ log, os.fork log ≠ os.outside) {s s' : State}
    (hs : Outcome.run (d.step os) o k = .next s)
    (hbefore : (d.arrive os s).bind (d.contextSwitch os) = .next s') : s'.OneInFront front := by
  obtain ⟨t, harr, hswitch⟩ := Outcome.bind_eq_next.mp hbefore
  obtain ⟨hI, hB⟩ := inv_of_next hd hW hlog.marks ho hs
  have hchild := children_of_next hd hc hW hlog ho k s hs
  obtain ⟨hfronts, hout⟩ := fronts_of_next hd hc hW hlog ho hpid k s hs
  obtain ⟨hfronts', -⟩ := Fronts.beforeUnit hd hc hW hI hB hchild hpid hout hfronts harr hswitch
  have hchild' := hchild.beforeUnit hd hc hW hI hB harr hswitch
  -- the children are the arrived processes, and the living ones have units left
  have hliving := fun {i} => hchild'.living_iff hW (fun _ => Iff.rfl) hB (i := i)
  -- the process to run is eligible, and nobody is if there is none
  have hC := atChoice_of_arrive hd hW hlog.marks ho hs harr
  obtain ⟨o', s₁, hs₁, hadm, hrun, -⟩ := contextSwitch_spec hd hC
  rw [hswitch, Outcome.next.injEq] at hs₁
  subst hs₁
  have hentry : ∀ pid, s'.log.Living pid →
      ∃ i, Arrived W (k + 1) i ∧ (entry s'.proc i).pid = pid :=
    fun pid hl => (hchild'.mem_iff pid).mp hl.1
  refine ⟨fun r hr => ?_, fun r hr pid hl hne => ?_, fun hr pid hl => ?_⟩
  · have hel := hadm.eligible r (hrun.symm.trans hr)
    refine ⟨(hliving ?_).mpr hel.unfinished, hfronts'.front r hr⟩
    exact ⟨mem_jobsOf.mp hel.mem, Nat.lt_succ_of_le hel.released⟩
  · obtain ⟨i, hi, rfl⟩ := hentry pid hl
    refine hfronts'.back i hi ((hliving hi).mp hl) fun he => hne ?_
    rw [hr, Option.some.injEq] at he
    rw [he]
  · obtain ⟨i, hi, rfl⟩ := hentry pid hl
    exact hadm.idle (hrun.symm.trans hr) i
      ⟨mem_jobsOf.mpr hi.1, Nat.le_of_lt_succ hi.2, (hliving hi).mp hl⟩

end Loop

/-- While a unit of time is spent, FIFO and RR have one child at `SCHED_OTHER`
    and SJF one at `SCHED_FIFO`, every other living child being at `SCHED_IDLE`. -/
theorem one_child_in_front (os : Os) (q : Qsort) (W : List Process) (hos : os.Healthy)
    (hout : ∀ log, os.fork log ≠ os.outside) (hW : WellFormed W) (k : ℕ) (s s' : Loop.State) :
    (Fifo.fifo os q W k = .next s →
      (Fifo.discipline.arrive os s).bind (Fifo.discipline.contextSwitch os) = .next s' →
        s'.OneInFront .other) ∧
      (Rr.rrMain os q W k = .next s →
        (Rr.discipline.arrive os s).bind (Rr.discipline.contextSwitch os) = .next s' →
          s'.OneInFront .other) ∧
      (Sjf.sjf os q W k = .next s →
        (Sjf.discipline.arrive os s).bind (Sjf.discipline.contextSwitch os) = .next s' →
          s'.OneInFront .fifo) := by
  refine ⟨fun hs hunit => ?_, fun hs hunit => ?_, fun hs hunit => ?_⟩
  · have hT := Policy.table_wellFormed (P := .fifo) (q := q) hW
    obtain ⟨log, hlog, hstart⟩ := Fifo.start_ok hos q W
    exact Loop.one_in_front (Fifo.obeys hos hT (Policy.table_sorted hW (by decide)))
      (Fifo.calls hos) hT hlog hstart hout hs hunit
  · have hT := Policy.table_wellFormed (P := .rr) (q := q) hW
    obtain ⟨log, hlog, hstart⟩ := Rr.start_ok hos q W
    exact Loop.one_in_front (Rr.obeys hos hT) (Rr.calls hos) hT hlog hstart hout hs hunit
  · have hT := Policy.table_wellFormed (P := .sjf) (q := q) hW
    obtain ⟨log, hlog, hstart⟩ := Sjf.start_ok hos q W
    exact Loop.one_in_front (Sjf.obeys hos hT) (Sjf.calls hos) hT hlog hstart hout hs hunit

/-- The kernel of the tests hands out no pid that stands in front of the table. -/
theorem Os.counting_outside (log : Log) : Os.counting.fork log ≠ Os.counting.outside := by
  have := Os.counting_healthy.fork_pos log
  simp only [counting] at this ⊢
  omega

/-- At clock 2 three children are alive. -/
theorem one_child_in_front_short :
    ∃ s s', Rr.rrMain Os.counting Qsort.insertion shortWorkload 2 = .next s ∧
      (Rr.discipline.arrive Os.counting s).bind (Rr.discipline.contextSwitch Os.counting)
        = .next s' ∧ s'.log.forked = [1001, 1002, 1003] ∧ s'.log.reaped = [] ∧
      s'.running = some 0 ∧ s'.OneInFront .other :=
  ⟨_, _, rfl, rfl, rfl, rfl, rfl, (one_child_in_front Os.counting Qsort.insertion shortWorkload
    Os.counting_healthy Os.counting_outside (by decide) 2 _ _).2.1 rfl rfl⟩

end ProcSched
