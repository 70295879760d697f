/-
  ProcSched.Lib.Outcome

  Loops given by their body: a body maps the state at the top of an iteration
  to an `Outcome`, and `Outcome.run` iterates it.  An iteration goes on, leaves
  the loop, ends the whole program with an error, or never comes back; the last
  three are absorbing, so a run that has stopped keeps its last state.

  The two rules the proofs use are `run_invariant` (what every iteration
  preserves holds at the top of every iteration reached) and `run_simulation`
  (two runs whose bodies agree up to a relation stop together).
-/

import Mathlib.Logic.Basic

namespace ProcSched

/-- The result of one pass through a loop body. -/
inductive Outcome (σ : Type) where
  /-- the body was executed, the loop goes on -/
  | next (s : σ)
  /-- the loop was left normally -/
  | done (s : σ)
  /-- the program ended with an error in the middle of the body -/
  | exit (s : σ)
  /-- the body itself never comes back -/
  | hang (s : σ)
  deriving DecidableEq

namespace Outcome

variable {σ τ : Type}

/-- The state carried by an outcome. -/
def state : Outcome σ → σ
  | next s => s
  | done s => s
  | exit s => s
  | hang s => s

/-- Continue with `f` if the loop is still going. -/
def bind (o : Outcome σ) (f : σ → Outcome σ) : Outcome σ :=
  match o with
  | next s => f s
  | done s => done s
  | exit s => exit s
  | hang s => hang s

/-- The same outcome seen through `f`. -/
def map (f : σ → τ) : Outcome σ → Outcome τ
  | next s => next (f s)
  | done s => done (f s)
  | exit s => exit (f s)
  | hang s => hang (f s)

/-- The entries of `f` for the state the loop goes on from, none if it has stopped. -/
def whenNext {α : Type} (o : Outcome σ) (f : σ → List α) : List α :=
  match o with
  | next s => f s
  | _ => []

/-- The outcome after `k` iterations of `step`. -/
def run (step : σ → Outcome σ) (o : Outcome σ) : Nat → Outcome σ
  | 0 => o
  | k + 1 => (run step o k).bind step

@[simp] theorem bind_next (s : σ) (f : σ → Outcome σ) : (next s).bind f = f s := rfl

@[simp] theorem bind_done (s : σ) (f : σ → Outcome σ) : (done s).bind f = done s := rfl

@[simp] theorem bind_exit (s : σ) (f : σ → Outcome σ) : (exit s).bind f = exit s := rfl

@[simp] theorem bind_hang (s : σ) (f : σ → Outcome σ) : (hang s).bind f = hang s := rfl

@[simp] theorem state_next (s : σ) : (next s).state = s := rfl

@[simp] theorem state_done (s : σ) : (done s).state = s := rfl

@[simp] theorem map_next (f : σ → τ) (s : σ) : (next s).map f = next (f s) := rfl

@[simp] theorem map_done (f : σ → τ) (s : σ) : (done s).map f = done (f s) := rfl

@[simp] theorem map_exit (f : σ → τ) (s : σ) : (exit s).map f = exit (f s) := rfl

@[simp] theorem state_map (f : σ → τ) (o : Outcome σ) : (o.map f).state = f o.state := by
  cases o <;> rfl

theorem map_map {υ : Type} (f : σ → τ) (g : τ → υ) (o : Outcome σ) :
    (o.map f).map g = o.map (g ∘ f) := by
  cases o <;> rfl

/-- The loop goes on after `o.bind f` only if it went on after `o`. -/
theorem bind_eq_next {o : Outcome σ} {f : σ → Outcome σ} {s' : σ} :
    o.bind f = next s' ↔ ∃ s, o = next s ∧ f s = next s' := by
  cases o <;> simp [bind]

theorem map_eq_next {f : σ → τ} {o : Outcome σ} {s' : τ} :
    o.map f = next s' ↔ ∃ s, o = next s ∧ f s = s' := by
  cases o <;> simp [map]

theorem map_eq_done {f : σ → τ} {o : Outcome σ} {s' : τ} :
    o.map f = done s' ↔ ∃ s, o = done s ∧ f s = s' := by
  cases o <;> simp [map]

@[simp] theorem whenNext_next {α : Type} (s : σ) (f : σ → List α) :
    (next s).whenNext f = f s := rfl

theorem mem_whenNext {α : Type} {o : Outcome σ} {f : σ → List α} {x : α} :
    x ∈ o.whenNext f ↔ ∃ s, o = next s ∧ x ∈ f s := by
  cases o <;> simp [whenNext]

section Run

variable {step : σ → Outcome σ} {o : Outcome σ}

@[simp] theorem run_zero : run step o 0 = o := rfl

theorem run_succ (k : Nat) : run step o (k + 1) = (run step o k).bind step := rfl

/-- One more iteration from a state the loop goes on from. -/
theorem run_succ_of_next {k : Nat} {s : σ} (h : run step o k = next s) :
    run step o (k + 1) = step s := by
  rw [run_succ, h, bind_next]

/-- An iteration that goes on was reached through one that went on. -/
theorem run_succ_eq_next {k : Nat} {s' : σ} (h : run step o (k + 1) = next s') :
    ∃ s, run step o k = next s ∧ step s = next s' :=
  bind_eq_next.mp h

/-- A loop that has been left stays left. -/
theorem run_done_add {k : Nat} {s : σ} (h : run step o k = done s) (m : Nat) :
    run step o (k + m) = done s := by
  induction m with
  | zero => exact h
  | succ m ih => rw [Nat.add_succ, run_succ, ih, bind_done]

theorem run_done_of_le {k m : Nat} {s : σ} (h : run step o k = done s) (hkm : k ≤ m) :
    run step o m = done s := by
  obtain ⟨d, rfl⟩ := Nat.exists_eq_add_of_le hkm
  exact run_done_add h d

/-- A loop is left in one state. -/
theorem run_done_unique {k m : Nat} {s t : σ} (h : run step o k = done s)
    (h' : run step o m = done t) : s = t := by
  rcases Nat.le_total k m with hle | hle
  · rw [run_done_of_le h hle] at h'
    exact done.inj h'
  · rw [run_done_of_le h' hle] at h
    exact (done.inj h).symm

/-- A loop that was entered is left by one of its iterations. -/
theorem exists_of_run_done {k : Nat} {s' : σ} (ho : ∀ s, o ≠ done s) (h : run step o k = done s') :
    ∃ c s, run step o c = next s ∧ step s = done s' := by
  induction k with
  | zero => exact absurd h (ho s')
  | succ k ih =>
      rw [run_succ] at h
      cases hrun : run step o k with
      | next s =>
          rw [hrun] at h
          exact ⟨k, s, hrun, h⟩
      | done s =>
          rw [hrun] at h
          exact ih (hrun.trans h)
      | exit s =>
          rw [hrun] at h
          cases h
      | hang s =>
          rw [hrun] at h
          cases h

/-- A loop that was entered, and whose iterations go on or leave it, is never
    stuck. -/
theorem run_next_or_done (ho : ∃ s, o = next s)
    (h : ∀ k s, run step o k = next s → (∃ t, step s = next t) ∨ ∃ t, step s = done t) (k : Nat) :
    (∃ s, run step o k = next s) ∨ ∃ s, run step o k = done s := by
  induction k with
  | zero => exact Or.inl ho
  | succ k ih =>
      rcases ih with ⟨s, hs⟩ | ⟨s, hs⟩
      · rw [run_succ_of_next hs]
        exact h k s hs
      · exact Or.inr ⟨s, run_done_of_le hs (Nat.le_succ k)⟩

/-- The invariant rule: a property of the iteration count and the state that
    holds on entry and is preserved by every iteration of the run holds at the
    top of every iteration reached. -/
theorem run_invariant {P : Nat → σ → Prop}
    (hinit : ∀ s, o = next s → P 0 s)
    (hstep : ∀ k s s', run step o k = next s → run step o (k + 1) = next s' →
      step s = next s' → P k s → P (k + 1) s') :
    ∀ k s, run step o k = next s → P k s := by
  intro k
  induction k with
  | zero => exact fun s h => hinit s h
  | succ k ih =>
      intro s' h
      obtain ⟨s, hs, hs'⟩ := run_succ_eq_next h
      exact hstep k s s' hs h hs' (ih s hs)

/-- The invariant rule for all outcomes: a property that the body keeps, however
    it ends, holds of the last state too. -/
theorem run_state_invariant {P : σ → Prop} (hinit : P o.state)
    (hstep : ∀ k s, run step o k = next s → P s → P (step s).state) :
    ∀ k, P (run step o k).state := by
  intro k
  induction k with
  | zero => exact hinit
  | succ k ih =>
      rw [run_succ]
      cases hrun : run step o k with
      | next s =>
          rw [hrun] at ih
          exact hstep k s hrun ih
      | _ =>
          rw [hrun] at ih
          exact ih

end Run

/-! ## Two runs side by side -/

section

variable {f g : σ → Outcome σ} {o : Outcome σ}

/-- Bodies that agree wherever the first run comes run alike. -/
theorem run_congr (h : ∀ k s, run f o k = next s → f s = g s) (k : Nat) :
    run f o k = run g o k := by
  induction k with
  | zero => rfl
  | succ k ih =>
      rw [run_succ, run_succ, ← ih]
      cases hrun : run f o k with
      | next s => exact h k s hrun
      | _ => rfl

/-- If a body ends the program or does as another one, so does the run. -/
theorem run_exit_or_eq (h : ∀ s, (∃ t, f s = exit t) ∨ f s = g s) (k : Nat) :
    (∃ t, run f o k = exit t) ∨ run f o k = run g o k := by
  induction k with
  | zero => exact Or.inr rfl
  | succ k ih =>
      rw [run_succ, run_succ]
      rcases ih with ⟨t, ht⟩ | heq
      · exact Or.inl ⟨t, by rw [ht, bind_exit]⟩
      · rw [← heq]
        cases run f o k with
        | next s => exact h s
        | _ => exact Or.inr rfl

/-- A body that never ends the program never does so in a run. -/
theorem run_ne_exit (ho : ∀ t, o ≠ exit t) (h : ∀ s t, f s ≠ exit t) (k : Nat) (t : σ) :
    run f o k ≠ exit t := by
  induction k with
  | zero => exact ho t
  | succ k ih =>
      rw [run_succ]
      cases hrun : run f o k with
      | next s => exact h s t
      | exit s =>
          rw [bind_exit, ← hrun]
          exact ih
      | done s => simp
      | hang s => simp

end

/-- Two outcomes of the same kind whose states are related. -/
inductive Rel (R : σ → τ → Prop) : Outcome σ → Outcome τ → Prop where
  | next {s t} (h : R s t) : Rel R (next s) (next t)
  | done {s t} (h : R s t) : Rel R (done s) (done t)
  | exit {s t} (h : R s t) : Rel R (exit s) (exit t)
  | hang {s t} (h : R s t) : Rel R (hang s) (hang t)

/-- What both states show alike, the outcomes show alike. -/
theorem Rel.map_eq {υ : Type} {R : σ → τ → Prop} {f : σ → υ} {g : τ → υ}
    (hfg : ∀ s t, R s t → f s = g t) {o : Outcome σ} {p : Outcome τ} (h : Rel R o p) :
    o.map f = p.map g := by
  cases h with
  | next h => exact congrArg Outcome.next (hfg _ _ h)
  | done h => exact congrArg Outcome.done (hfg _ _ h)
  | exit h => exact congrArg Outcome.exit (hfg _ _ h)
  | hang h => exact congrArg Outcome.hang (hfg _ _ h)

/-- A view of the states that the bodies respect is a view of the runs. -/
theorem run_map {φ : σ → τ} {f : σ → Outcome σ} {g : τ → Outcome τ}
    (hfg : ∀ s, g (φ s) = (f s).map φ) (o : Outcome σ) (k : Nat) :
    run g (o.map φ) k = (run f o k).map φ := by
  induction k with
  | zero => rfl
  | succ k ih =>
      rw [run_succ, run_succ, ih]
      cases run f o k with
      | next s => exact hfg s
      | _ => rfl

/-- Related outcomes stay related under bodies that respect the relation. -/
theorem Rel.bind {R S : σ → τ → Prop} (hRS : ∀ s t, R s t → S s t)
    {o : Outcome σ} {p : Outcome τ} (h : Rel R o p)
    {f : σ → Outcome σ} {g : τ → Outcome τ}
    (hfg : ∀ s t, o = Outcome.next s → p = Outcome.next t → R s t → Rel S (f s) (g t)) :
    Rel S (o.bind f) (p.bind g) := by
  cases h with
  | next h => exact hfg _ _ rfl rfl h
  | done h => exact .done (hRS _ _ h)
  | exit h => exact .exit (hRS _ _ h)
  | hang h => exact .hang (hRS _ _ h)

/-- The simulation rule: runs that start related and whose bodies keep the
    relation at every iteration reached are related after every iteration, so
    they go on, stop and fail together. -/
theorem run_simulation {R : σ → τ → Prop}
    {f : σ → Outcome σ} {g : τ → Outcome τ} {o : Outcome σ} {p : Outcome τ}
    (hinit : Rel R o p) (m : Nat)
    (hstep : ∀ k s t, k < m → run f o k = next s → run g p k = next t → R s t →
      Rel R (f s) (g t)) :
    ∀ k, k ≤ m → Rel R (run f o k) (run g p k) := by
  intro k
  induction k with
  | zero => exact fun _ => hinit
  | succ k ih =>
      intro hk
      exact Rel.bind (fun _ _ h => h) (ih (by omega))
        (fun s t hs ht hR => hstep k s t (by omega) hs ht hR)

end Outcome
end ProcSched
