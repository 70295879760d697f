/-
  ProcSched.Spec.Workload

  The workloads the schedulers are meant for, and the same workload seen as a
  set of jobs: positions of the table with release times and lengths.
-/

import ProcSched.Lib.Makespan
import ProcSched.Lib.Policies
import ProcSched.Model.Policy
import Mathlib.Data.List.Sort

namespace ProcSched

/-- At least one process, no negative ready time, no empty process, and a clock
    that fits an `int`. -/
structure WellFormed (W : List Process) : Prop where
  nonempty : W ≠ []
  ready_nonneg : ∀ p ∈ W, 0 ≤ p.ready
  exec_pos : ∀ p ∈ W, 1 ≤ p.exec
  bounded : ∀ p ∈ W, p.ready + (W.map Process.exec).sum ≤ intMax

/-- The `waiting` fields start at 0. -/
def ZeroWaiting (W : List Process) : Prop := ∀ p ∈ W, p.waiting = 0

instance (W : List Process) : Decidable (WellFormed W) :=
  decidable_of_iff (W ≠ [] ∧ (∀ p ∈ W, 0 ≤ p.ready) ∧ (∀ p ∈ W, 1 ≤ p.exec) ∧
      ∀ p ∈ W, p.ready + (W.map Process.exec).sum ≤ intMax)
    ⟨fun ⟨h₁, h₂, h₃, h₄⟩ => ⟨h₁, h₂, h₃, h₄⟩, fun h => ⟨h.1, h.2, h.3, h.4⟩⟩

instance (W : List Process) : Decidable (ZeroWaiting W) :=
  inferInstanceAs (Decidable (∀ p ∈ W, p.waiting = 0))

/-- A table entry with the fields main does not fill at 0. -/
def Record.load (r : Record) : Process := ⟨r.name, r.ready, r.exec, 0, 0⟩

/-- The file's records in clean memory. -/
def cleanTable (R : List Record) : List Process := R.map Record.load

/-- The records of the test of README.md. -/
def readmeRecords : List Record :=
  [⟨"P1", 0, 2000⟩, ⟨"P2", 500, 500⟩, ⟨"P3", 1000, 500⟩, ⟨"P4", 1500, 500⟩]

/-- The test of README.md. -/
def readmeWorkload : List Process := cleanTable readmeRecords

/-- Four processes of a few units that come while the first one runs. -/
def shortWorkload : List Process :=
  cleanTable [⟨"P1", 0, 4⟩, ⟨"P2", 1, 2⟩, ⟨"P3", 2, 1⟩, ⟨"P4", 3, 1⟩]

/-- A table as a set of jobs, named by their positions. -/
def jobsOf (W : List Process) : Jobs ℕ where
  jobs := Finset.range W.length
  release i := (entry W i).ready.toNat
  length i := (entry W i).exec.toNat

/-- Release time and length of every entry, in table order. -/
def pairsOf (W : List Process) : List (ℕ × ℕ) :=
  W.map fun p => (p.ready.toNat, p.exec.toNat)

/-- The workload in ready order, processes of one ready time in file order. -/
def readyOrder (W : List Process) : List Process :=
  W.insertionSort fun a b => a.ready ≤ b.ready

/-- The time at which a processor that is busy whenever it can be has done all
    the work: the last value of `B k = max (B (k - 1)) (ready k) + exec k` over
    the processes in ready order. -/
def makespan (W : List Process) : ℕ := Jobs.finishTime (pairsOf (readyOrder W))

theorem readyOrder_perm (W : List Process) : (readyOrder W).Perm W :=
  List.perm_insertionSort _ _

theorem readyOrder_sorted (W : List Process) :
    (readyOrder W).Pairwise fun a b => a.ready ≤ b.ready := by
  have htotal : Std.Total fun a b : Process => a.ready ≤ b.ready :=
    ⟨fun a b => Int.le_total a.ready b.ready⟩
  have htrans : IsTrans Process fun a b => a.ready ≤ b.ready :=
    ⟨fun _ _ _ hab hbc => Int.le_trans hab hbc⟩
  exact List.pairwise_insertionSort _ _

@[simp] theorem mem_jobsOf {W : List Process} {i : ℕ} : i ∈ (jobsOf W).jobs ↔ i < W.length :=
  Finset.mem_range

namespace WellFormed

variable {W W' : List Process}

theorem perm (h : WellFormed W) (hp : W'.Perm W) : WellFormed W' where
  nonempty he := h.nonempty (by rw [he] at hp; exact hp.nil_eq.symm)
  ready_nonneg p hm := h.ready_nonneg p (hp.mem_iff.mp hm)
  exec_pos p hm := h.exec_pos p (hp.mem_iff.mp hm)
  bounded p hm := by
    rw [(hp.map _).sum_eq]
    exact h.bounded p (hp.mem_iff.mp hm)

theorem length_pos (h : WellFormed W) : 0 < W.length := List.length_pos_of_ne_nil h.nonempty

theorem sum_exec_nonneg (h : WellFormed W) : 0 ≤ (W.map Process.exec).sum :=
  List.sum_nonneg fun x hx => by
    obtain ⟨p, hp, rfl⟩ := List.mem_map.mp hx
    have := h.exec_pos p hp
    omega

theorem ready_le (h : WellFormed W) {p : Process} (hp : p ∈ W) : p.ready ≤ intMax := by
  have h₁ := h.bounded p hp
  have h₂ := h.sum_exec_nonneg
  omega

theorem release_eq (h : WellFormed W) {i : ℕ} (hi : i < W.length) :
    ((jobsOf W).release i : Int) = (entry W i).ready :=
  Int.toNat_of_nonneg (h.ready_nonneg _ (entry_mem hi))

theorem length_eq (h : WellFormed W) {i : ℕ} (hi : i < W.length) :
    ((jobsOf W).length i : Int) = (entry W i).exec := by
  have := h.exec_pos _ (entry_mem hi)
  exact Int.toNat_of_nonneg (by omega)

theorem jobs_length_pos (h : WellFormed W) {i : ℕ} (hi : i < W.length) :
    0 < (jobsOf W).length i := by
  have h₁ := h.length_eq hi
  have h₂ := h.exec_pos _ (entry_mem hi)
  omega

theorem mem_length_pos (h : WellFormed W) : ∀ i ∈ (jobsOf W).jobs, 0 < (jobsOf W).length i :=
  fun _ hi => h.jobs_length_pos (mem_jobsOf.mp hi)

end WellFormed

/-- The law each scheduler is meant to follow on its table. -/
def Policy.Law (P : Policy) (J : Jobs ℕ) (σ : Schedule ℕ) : Prop :=
  match P with
  | fifo => J.Fcfs σ
  | sjf => J.Sjn σ
  | rr => J.RoundRobin Rr.interval σ
  | psjf => J.Srpt σ

/-- The hypothesis on memory that only PSJF needs. -/
def Policy.Fresh (P : Policy) (W : List Process) : Prop := P = psjf → ZeroWaiting W

end ProcSched
