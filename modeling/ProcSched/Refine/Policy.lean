/-
  ProcSched.Refine.Policy

  The four schedulers at once.  Each run is described by the schedule read off
  its log, ends at the makespan of the workload and follows the law of its
  policy (`describes`, `law`).
-/

import ProcSched.Refine.Psjf

namespace ProcSched
namespace Policy

/-- Iterations between the last unit of a process and its finish. -/
def delay : Policy → ℕ
  | psjf => 0
  | _ => 1

/-- Schedules with one law on corresponding jobs in the same order run the same. -/
theorem Law.matching {P : Policy} {J K : Jobs ℕ} {f : ℕ → ℕ} {T : ℕ} {σ τ : Schedule ℕ}
    (hM : J.Matches K f T) (hO : J.KeepsOrder f T) (hσ : P.Law J σ) (hτ : P.Law K τ) :
    ∀ t, t ≤ T → τ t = (σ t).map f := by
  cases P with
  | fifo => exact Jobs.Fcfs.matching hM hO hσ hτ
  | sjf => exact Jobs.Sjn.matching hM hO hσ hτ
  | rr => exact Jobs.RoundRobin.matching hM hO hσ hτ
  | psjf => exact Jobs.Srpt.matching hσ hτ hM (hO.ties hσ)

/-- What each scheduler may choose. -/
def choiceLaw (P : Policy) (W : List Process) : ChoiceLaw :=
  match P with
  | fifo => fcfsLaw W
  | sjf => sjnLaw W
  | rr => roundRobinLaw W
  | psjf => Psjf.srptLaw W

variable {P : Policy} {os : Os} {q : Qsort} {W : List Process}

theorem exists_describes (hos : os.Healthy) (hW : WellFormed W) (hz : P.Fresh W) :
    ∃ σ T, Describes (P.run os q W) (P.table q W) (P.choiceLaw (P.table q W)) σ P.delay T := by
  have hT := P.table_wellFormed (q := q) hW
  cases P with
  | fifo =>
      obtain ⟨log, hlog, hstart⟩ := Fifo.start_ok hos q W
      have hd := Fifo.obeys hos hT (table_sorted hW (by decide))
      exact ⟨_, Loop.describes hd hT hlog.marks hstart⟩
  | sjf =>
      obtain ⟨log, hlog, hstart⟩ := Sjf.start_ok hos q W
      exact ⟨_, Loop.describes (Sjf.obeys hos hT) hT hlog.marks hstart⟩
  | rr =>
      obtain ⟨log, hlog, hstart⟩ := Rr.start_ok hos q W
      exact ⟨_, Loop.describes (Rr.obeys hos hT) hT hlog.marks hstart⟩
  | psjf => exact ⟨_, Psjf.describes hos hT (hz rfl)⟩

/-- A run is described by the schedule in its log and ends at the makespan. -/
theorem describes (hos : os.Healthy) (hW : WellFormed W) (hz : P.Fresh W) :
    Describes (P.run os q W) (P.table q W) (P.choiceLaw (P.table q W)) (P.ran os q W) P.delay
      (makespan W) := by
  obtain ⟨σ, T, h⟩ := exists_describes (q := q) hos hW hz
  have hσ : P.ran os q W = σ := funext h.decremented
  have hT : T = makespan W := by
    rw [h.toCompletes.eq_makespan (P.table_wellFormed hW), makespan_perm hW (P.table_perm q W)]
  rw [hσ, ← hT]
  exact h

theorem ran_sjf (hos : os.Healthy) (hW : WellFormed W) : sjf.ran os q W =
    Loop.followed Sjf.discipline os (Sjf.start os q W) := by
  have hT := table_wellFormed (P := .sjf) (q := q) hW
  obtain ⟨log, hlog, hstart⟩ := Sjf.start_ok hos q W
  obtain ⟨T, h⟩ := Loop.describes (Sjf.obeys hos hT) hT hlog.marks hstart
  exact funext h.decremented

theorem ran_rr (hos : os.Healthy) (hW : WellFormed W) : rr.ran os q W =
    Loop.followed Rr.discipline os (Rr.start os q W) := by
  have hT := table_wellFormed (P := .rr) (q := q) hW
  obtain ⟨log, hlog, hstart⟩ := Rr.start_ok hos q W
  obtain ⟨T, h⟩ := Loop.describes (Rr.obeys hos hT) hT hlog.marks hstart
  exact funext h.decremented

theorem ran_psjf (hos : os.Healthy) (hW : WellFormed W) (hz : ZeroWaiting W) :
    psjf.ran os q W = Psjf.followed os (Psjf.start os W) := by
  obtain ⟨T, h⟩ := Psjf.describes hos hW hz
  exact funext h.decremented

/-- Each scheduler follows the law of its policy. -/
theorem law (hos : os.Healthy) (hW : WellFormed W) (hz : P.Fresh W) :
    P.Law (jobsOf (P.table q W)) (P.ran os q W) := by
  have h := describes (q := q) hos hW hz
  have hcur : ∀ t r, (jobsOf (P.table q W)).current (P.ran os q W) t = some r →
      (jobsOf (P.table q W)).Eligible (P.ran os q W) t r := fun t r => h.legal.eligible_current
  cases P with
  | fifo =>
      exact ⟨h.legal, h.busy, fun t r hr => (h.law t r (hcur t r hr)).1 r hr,
        fun t i j hr hi hj => (h.law t j hj).2 i j hr hi hj⟩
  | sjf =>
      exact ⟨h.legal, h.busy, fun t r hr => (h.law t r (hcur t r hr)).1 r hr,
        fun t i j hr hi hj => (h.law t j hj).2 i j hr hi hj⟩
  | rr =>
      exact ⟨h.legal, h.busy, fun t i j hr hi hj => (h.law t j hj).1 i j hr hi hj,
        fun t r hr hq => (h.law t r (hcur t r hr)).2.1 r hr hq,
        fun t r i hr hq hi => (h.law t r (hcur t r hr)).2.2 r i hr hq hi⟩
  | psjf => exact ⟨h.legal, h.busy, fun t i j hi hj => h.law t j hj i j hi hj⟩

end Policy
end ProcSched
