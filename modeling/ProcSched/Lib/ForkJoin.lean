/-
  ProcSched.Lib.ForkJoin

  A parent that forks children and waits for them, with the steps of all of them
  in any order.  The parent is a deterministic program whose steps may fork a
  child or wait for one; each child is a deterministic program of its own, and
  nothing is shared.  `Step` interleaves: a wait is possible only when the child
  has exited, everything else at any time.

  Whatever the order, the parent makes the steps it makes alone, and the children
  are the ones it has forked (`Run.tally`).  Nothing is ever blocked for good
  (`Step.progress`), and if the parent ends alone, every order of the steps comes
  to the same end after the same number of them (`Run.length_le`,
  `Run.length_of_stuck`).
-/

import Mathlib.Algebra.BigOperators.Group.List.Basic
import Mathlib.Algebra.Ring.Nat
import Mathlib.Data.List.Induction

namespace ProcSched
namespace ForkJoin

/-- What a step of the parent does to the children. -/
inductive Action (π β : Type) where
  | quiet
  | fork (pid : π) (child : β)
  | wait (pid : π)

/-- The children forked, oldest first. -/
def forks {π β : Type} (acts : List (Action π β)) : List (π × β) :=
  acts.filterMap fun x =>
    match x with
    | .fork p c => some (p, c)
    | _ => none

/-- The children waited for, oldest first. -/
def waits {π β : Type} (acts : List (Action π β)) : List π :=
  acts.filterMap fun x =>
    match x with
    | .wait p => some p
    | _ => none

/-- The programs of a parent and of its children. -/
structure System (α β π : Type) where
  /-- the next step of the parent, `none` when it has ended -/
  parent : α → Option (Action π β × α)
  /-- the next step of a child, `none` when it has exited -/
  child : β → Option β

/-- The parent, the children it has not waited for, oldest first, and the
    others, in the order of the waits. -/
structure World (α β π : Type) where
  parent : α
  children : List (π × β)
  reaped : List (π × β)

variable {α β π κ : Type} {S : System α β π}

/-- Who makes a step, and from which place. -/
inductive Mover (α β π : Type) where
  | parent (a : α)
  | child (pid : π) (c : β)

/-- A step of the parent or of one child. -/
inductive Move (S : System α β π) : Mover α β π → World α β π → World α β π → Prop
  | quiet {a b cs rs} (h : S.parent a = some (.quiet, b)) :
      Move S (.parent a) ⟨a, cs, rs⟩ ⟨b, cs, rs⟩
  | fork {a b p c cs rs} (h : S.parent a = some (.fork p c, b)) :
      Move S (.parent a) ⟨a, cs, rs⟩ ⟨b, cs ++ [(p, c)], rs⟩
  | wait {a b p c l r rs} (h : S.parent a = some (.wait p, b)) (hc : S.child c = none) :
      Move S (.parent a) ⟨a, l ++ (p, c) :: r, rs⟩ ⟨b, l ++ r, rs ++ [(p, c)]⟩
  | waitFail {a b p cs rs} (h : S.parent a = some (.wait p, b)) (hp : ∀ c ∈ cs, c.1 ≠ p) :
      Move S (.parent a) ⟨a, cs, rs⟩ ⟨b, cs, rs⟩
  | child {a p c c' l r rs} (h : S.child c = some c') :
      Move S (.child p c) ⟨a, l ++ (p, c) :: r, rs⟩ ⟨a, l ++ (p, c') :: r, rs⟩

/-- A step of somebody. -/
def Step (S : System α β π) (w w' : World α β π) : Prop := ∃ m, Move S m w w'

/-- `n` steps in some order, from a parent without children. -/
inductive Run (S : System α β π) (a : α) : ℕ → World α β π → Prop
  | start : Run S a 0 ⟨a, [], []⟩
  | step {n w w'} (h : Run S a n w) (hs : Step S w w') : Run S a (n + 1) w'

/-- The same, with those who make the steps. -/
inductive Trail (S : System α β π) (a : α) : List (Mover α β π) → World α β π → Prop
  | start : Trail S a [] ⟨a, [], []⟩
  | step {ms m w w'} (h : Trail S a ms w) (hm : Move S m w w') : Trail S a (ms ++ [m]) w'

/-- What the parent's steps do to the children. -/
def deeds (S : System α β π) (ms : List (Mover α β π)) : List (Action π β) :=
  ms.filterMap fun m =>
    match m with
    | .parent a => (S.parent a).map Prod.fst
    | .child _ _ => none

/-- The steps of the parent alone. -/
inductive Path (S : System α β π) (a : α) : List (Action π β) → α → Prop
  | nil : Path S a [] a
  | snoc {acts b x c} (h : Path S a acts b) (hx : S.parent b = some (x, c)) :
      Path S a (acts ++ [x]) c

variable {a b b' : α} {acts acts' : List (Action π β)} {ms ms' : List (Mover α β π)}
  {m : Mover α β π} {n : ℕ} {w w' : World α β π}

@[simp] theorem forks_nil : forks ([] : List (Action π β)) = [] := rfl

@[simp] theorem forks_append (l m : List (Action π β)) : forks (l ++ m) = forks l ++ forks m :=
  List.filterMap_append

@[simp] theorem forks_quiet : forks [(.quiet : Action π β)] = [] := rfl

@[simp] theorem forks_fork (p : π) (c : β) : forks [.fork p c] = [(p, c)] := rfl

@[simp] theorem forks_wait (p : π) : forks [(.wait p : Action π β)] = [] := rfl

@[simp] theorem waits_nil : waits ([] : List (Action π β)) = [] := rfl

@[simp] theorem waits_append (l m : List (Action π β)) : waits (l ++ m) = waits l ++ waits m :=
  List.filterMap_append

@[simp] theorem waits_quiet : waits [(.quiet : Action π β)] = [] := rfl

@[simp] theorem waits_fork (p : π) (c : β) : waits [.fork p c] = [] := rfl

@[simp] theorem waits_wait (p : π) : waits [(.wait p : Action π β)] = [p] := rfl

@[simp] theorem deeds_nil : deeds S [] = [] := rfl

@[simp] theorem deeds_append (l m : List (Mover α β π)) :
    deeds S (l ++ m) = deeds S l ++ deeds S m :=
  List.filterMap_append

theorem deeds_parent {x : Action π β} (h : S.parent a = some (x, b)) :
    deeds S [.parent a] = [x] := by
  simp [deeds, h]

@[simp] theorem deeds_child (p : π) (c : β) : deeds S [.child p c] = [] := rfl

/-! ## The parent alone -/

/-- The parent comes to one place after a number of steps. -/
theorem Path.unique (h : Path S a acts b) (h' : Path S a acts' b')
    (hlen : acts.length = acts'.length) : acts = acts' ∧ b = b' := by
  induction h generalizing acts' b' with
  | nil =>
      cases h' with
      | nil => exact ⟨rfl, rfl⟩
      | snoc h' hx' => simp at hlen
  | snoc h hx ih =>
      cases h' with
      | nil => simp at hlen
      | snoc h' hx' =>
          simp only [List.length_append, List.length_singleton, Nat.add_right_cancel_iff] at hlen
          obtain ⟨rfl, rfl⟩ := ih h' hlen
          rw [hx, Option.some.injEq, Prod.mk.injEq] at hx'
          obtain ⟨rfl, rfl⟩ := hx'
          exact ⟨rfl, rfl⟩

theorem Path.take (h : Path S a acts b) {m : ℕ} (hm : m ≤ acts.length) :
    ∃ b', Path S a (acts.take m) b' := by
  induction h with
  | nil => exact ⟨a, by simpa using Path.nil⟩
  | @snoc acts b x c h hx ih =>
      rw [List.length_append, List.length_singleton] at hm
      rcases Nat.lt_or_eq_of_le hm with hlt | rfl
      · rw [List.take_append_of_le_length (by omega)]
        exact ih (by omega)
      · rw [← List.length_singleton (a := x), ← List.length_append, List.take_length]
        exact ⟨c, h.snoc hx⟩

/-- From a place on its way the parent goes on as it has to. -/
theorem Path.rest {rest : List (Action π β)} (h : Path S a acts b)
    (h' : Path S a (acts ++ rest) b') : Path S b rest b' := by
  induction rest using List.reverseRecOn generalizing b' with
  | nil =>
      rw [List.append_nil] at h'
      rw [(h.unique h' rfl).2]
      exact Path.nil
  | append_singleton rest x ih =>
      rw [← List.append_assoc] at h'
      generalize hl : acts ++ rest ++ [x] = l at h'
      cases h' with
      | nil => simp at hl
      | snoc h' hx =>
          obtain ⟨rfl, hsame⟩ := List.append_inj' hl rfl
          cases hsame
          exact (ih h').snoc hx

/-- A parent that ends has come through all its places before. -/
theorem Path.prefix_of_end (h : Path S a acts b) (hend : S.parent b = none)
    (h' : Path S a acts' b') : acts' <+: acts := by
  have hle : acts'.length ≤ acts.length := by
    by_contra hlt
    obtain ⟨c, hc⟩ := h'.take (m := acts.length + 1) (by omega)
    -- one step before it would have been at the end
    generalize hl : acts'.take (acts.length + 1) = l at hc
    have hlen : l.length = acts.length + 1 := by
      rw [← hl, List.length_take]
      omega
    cases hc with
    | nil => simp at hlen
    | snoc hc hx =>
        simp only [List.length_append, List.length_singleton, Nat.add_right_cancel_iff] at hlen
        obtain ⟨-, rfl⟩ := hc.unique h hlen
        rw [hend] at hx
        cases hx
  obtain ⟨c, hc⟩ := h.take hle
  obtain ⟨heq, -⟩ := h'.unique hc (by rw [List.length_take]; omega)
  rw [heq]
  exact List.take_prefix _ _

/-! ## Any order of the steps -/

/-- The parent never forks a pid again, and waits for each of its children at
    most once and for nobody else. -/
structure Sane (S : System α β π) (a : α) : Prop where
  fork : ∀ {acts b p c b'}, Path S a acts b → S.parent b = some (.fork p c, b') →
    p ∉ (forks acts).map Prod.fst
  wait : ∀ {acts b p b'}, Path S a acts b → S.parent b = some (.wait p, b') →
    p ∈ (forks acts).map Prod.fst ∧ p ∉ waits acts

/-- `left` counts the steps of a child, `key` is what no step of it changes. -/
structure Measured (S : System α β π) (key : β → κ) (left : β → ℕ) : Prop where
  key_eq : ∀ {c c'}, S.child c = some c' → key c' = key c
  left_eq : ∀ {c c'}, S.child c = some c' → left c = left c' + 1
  exited : ∀ {c}, S.child c = none → left c = 0

/-- The steps left to a list of children. -/
def work (left : β → ℕ) (cs : List (π × β)) : ℕ := (cs.map fun c => left c.2).sum

@[simp] theorem work_nil (left : β → ℕ) : work left ([] : List (π × β)) = 0 := rfl

@[simp] theorem work_append (left : β → ℕ) (l m : List (π × β)) :
    work left (l ++ m) = work left l + work left m := by
  simp [work]

@[simp] theorem work_cons (left : β → ℕ) (c : π × β) (l : List (π × β)) :
    work left (c :: l) = left c.2 + work left l := by
  simp [work]

/-- The world after `n` steps in which the parent has made the steps `acts`. -/
structure Tally (S : System α β π) (key : β → κ) (left : β → ℕ) (a : α)
    (acts : List (Action π β)) (n : ℕ) (w : World α β π) : Prop where
  path : Path S a acts w.parent
  keys : ((w.children ++ w.reaped).map fun c => (c.1, key c.2)).Perm
    ((forks acts).map fun c => (c.1, key c.2))
  reaped : w.reaped.map Prod.fst = waits acts
  exited : ∀ c ∈ w.reaped, S.child c.2 = none
  length : n + work left w.children = acts.length + work left (forks acts)

variable {key : β → κ} {left : β → ℕ}

theorem Tally.pids (h : Tally S key left a acts n w) :
    ((w.children ++ w.reaped).map Prod.fst).Perm ((forks acts).map Prod.fst) := by
  have := h.keys.map Prod.fst
  simpa only [List.map_map, Function.comp_def] using this

/-- The pids of the children are all different. -/
theorem Sane.nodup (hS : Sane S a) (h : Path S a acts b) : ((forks acts).map Prod.fst).Nodup := by
  induction h with
  | nil => exact List.nodup_nil
  | @snoc acts b x c h hx ih =>
      cases x with
      | quiet => simpa using ih
      | wait p => simpa using ih
      | fork p d =>
          rw [forks_append, forks_fork, List.map_append, List.nodup_append]
          refine ⟨ih, by simp, fun p' hp' q hq heq => ?_⟩
          rw [List.map_singleton, List.mem_singleton] at hq
          rw [heq, hq] at hp'
          exact hS.fork h hx hp'

/-- Any order of the steps: the parent is on its way, and the children are the
    ones it has forked. -/
theorem Trail.tally (hS : Sane S a) (hM : Measured S key left) (h : Trail S a ms w) :
    Tally S key left a (deeds S ms) ms.length w := by
  induction h with
  | start => exact ⟨Path.nil, List.Perm.refl _, rfl, fun c hc => by simp at hc, rfl⟩
  | @step ms m w w' h hm ht =>
      have hlength := ht.length
      rw [List.length_append, List.length_singleton, deeds_append]
      cases hm with
      | @quiet a₁ b₁ cs rs hp =>
          rw [deeds_parent hp]
          refine ⟨ht.path.snoc hp, by simpa using ht.keys, by simpa using ht.reaped, ht.exited, ?_⟩
          simp only [List.length_append, List.length_singleton, forks_append, forks_quiet,
            List.append_nil] at hlength ⊢
          omega
      | @fork a₁ b₁ p c cs rs hp =>
          rw [deeds_parent hp]
          refine ⟨ht.path.snoc hp, ?_, by simpa using ht.reaped, ht.exited, ?_⟩
          · have hkeys := ht.keys.append_right [(p, key c)]
            simp only [List.map_append, List.append_assoc, forks_append, forks_fork, List.map_cons,
              List.map_nil] at hkeys ⊢
            exact (List.Perm.append_left _ List.perm_append_comm).trans hkeys
          · simp only [List.length_append, List.length_singleton, forks_append, forks_fork,
              work_append, work_cons, work_nil] at hlength ⊢
            omega
      | @wait a₁ b₁ p c l r rs hp hc =>
          rw [deeds_parent hp]
          refine ⟨ht.path.snoc hp, ?_, ?_, fun d hd => ?_, ?_⟩
          · have hkeys := ht.keys
            simp only [List.map_append, List.map_cons, List.append_assoc, List.cons_append,
              forks_append, forks_wait, List.map_nil, List.append_nil] at hkeys ⊢
            refine List.Perm.trans (List.Perm.append_left _ ?_) hkeys
            rw [← List.append_assoc]
            exact List.perm_append_singleton _ _
          · have hreaped := ht.reaped
            simp only at hreaped ⊢
            rw [List.map_append, hreaped, waits_append, waits_wait]
            rfl
          · rcases List.mem_append.mp hd with hd | hd
            · exact ht.exited d hd
            · rw [List.mem_singleton.mp hd]
              exact hc
          · have hleft := hM.exited hc
            simp only [List.length_append, List.length_singleton, forks_append, forks_wait,
              List.append_nil, work_append, work_cons] at hlength ⊢
            omega
      | @waitFail a₁ b₁ p cs rs hp hno =>
          -- a child of that pid has been forked and not been waited for
          obtain ⟨hmem, hnot⟩ := hS.wait ht.path hp
          have hmem' := ht.pids.mem_iff.mpr hmem
          rw [List.map_append, List.mem_append, ht.reaped] at hmem'
          obtain ⟨c, hc, hcp⟩ := List.mem_map.mp (hmem'.resolve_right hnot)
          exact absurd hcp (hno c hc)
      | @child a₁ p c c' l r rs hc =>
          rw [deeds_child, List.append_nil]
          refine ⟨ht.path, ?_, ht.reaped, ht.exited, ?_⟩
          · have hkeys := ht.keys
            simp only [List.map_append, List.map_cons, hM.key_eq hc] at hkeys ⊢
            exact hkeys
          · have hleft := hM.left_eq hc
            simp only [work_append, work_cons] at hlength ⊢
            omega

theorem Run.exists_trail (h : Run S a n w) : ∃ ms, Trail S a ms w ∧ ms.length = n := by
  induction h with
  | start => exact ⟨[], Trail.start, rfl⟩
  | step h hs ih =>
      obtain ⟨ms, ht, rfl⟩ := ih
      obtain ⟨m, hm⟩ := hs
      exact ⟨ms ++ [m], ht.step hm, by simp⟩

theorem Trail.run (h : Trail S a ms w) : Run S a ms.length w := by
  induction h with
  | start => exact Run.start
  | step h hm ih =>
      rw [List.length_append, List.length_singleton]
      exact ih.step ⟨_, hm⟩

theorem Run.tally (hS : Sane S a) (hM : Measured S key left) (h : Run S a n w) :
    ∃ acts, Tally S key left a acts n w := by
  obtain ⟨ms, ht, rfl⟩ := h.exists_trail
  exact ⟨_, ht.tally hS hM⟩

/-- The children not waited for, in a world the parent has come to by `acts`. -/
theorem Tally.mem_children (hS : Sane S a) (h : Tally S key left a acts n w) {p : π} :
    p ∈ w.children.map Prod.fst ↔ p ∈ (forks acts).map Prod.fst ∧ p ∉ waits acts := by
  have hmem := h.pids.mem_iff (a := p)
  have hnodup := h.pids.nodup_iff.mpr (hS.nodup h.path)
  rw [List.map_append, h.reaped] at hnodup
  rw [List.map_append, List.mem_append, h.reaped] at hmem
  rw [← hmem]
  constructor
  · exact fun hp => ⟨Or.inl hp, fun hw => (List.nodup_append.mp hnodup).2.2 p hp p hw rfl⟩
  · exact fun hp => hp.1.resolve_right hp.2

/-- What holds of every child at its fork and is kept by its steps holds of the
    children. -/
theorem Run.children_invariant {I : β → Prop}
    (hfork : ∀ {acts b p c b'}, Path S a acts b → S.parent b = some (.fork p c, b') → I c)
    (hchild : ∀ {c c'}, I c → S.child c = some c' → I c') (hS : Sane S a)
    (hM : Measured S key left) (h : Run S a n w) : ∀ c ∈ w.children ++ w.reaped, I c.2 := by
  induction h with
  | start => exact fun c hc => by simp at hc
  | step h hs ih =>
      obtain ⟨acts, ht⟩ := h.tally hS hM
      obtain ⟨m, hs⟩ := hs
      intro d hd
      cases hs with
      | quiet _ => exact ih d hd
      | @fork a₁ b₁ p c cs rs hp =>
          simp only [List.mem_append, List.mem_singleton] at hd ih
          rcases hd with (hd | rfl) | hd
          · exact ih d (Or.inl hd)
          · exact hfork ht.path hp
          · exact ih d (Or.inr hd)
      | @wait a₁ b₁ p c l r rs hp hc =>
          refine ih d ?_
          simp only [List.mem_append, List.mem_cons, List.not_mem_nil, or_false] at hd ⊢
          tauto
      | waitFail _ _ => exact ih d hd
      | @child a₁ p c c' l r rs hc =>
          simp only [List.mem_append, List.mem_cons] at hd ih
          rcases hd with (hd | rfl | hd) | hd
          · exact ih d (Or.inl (Or.inl hd))
          · exact hchild (ih (p, c) (Or.inl (Or.inr (Or.inl rfl)))) hc
          · exact ih d (Or.inl (Or.inr (Or.inr hd)))
          · exact ih d (Or.inr hd)

/-- Some of the children make a step, one after the other. -/
theorem Run.map_children {cs rs : List (π × β)} {f : π × β → π × β} (h : Run S a n ⟨b, cs, rs⟩)
    (hf : ∀ c ∈ cs, f c = c ∨ (f c).1 = c.1 ∧ S.child c.2 = some (f c).2) :
    ∃ m, Run S a m ⟨b, cs.map f, rs⟩ := by
  have hpart : ∀ l r n, Run S a n ⟨b, l ++ r, rs⟩ → (∀ c ∈ r, c ∈ cs) →
      ∃ m, Run S a m ⟨b, l ++ r.map f, rs⟩ := by
    intro l r
    induction r generalizing l with
    | nil => exact fun n hn _ => ⟨n, hn⟩
    | cons c r ih =>
        intro n hn hr
        have hnext : ∃ m, Run S a m ⟨b, l ++ [f c] ++ r, rs⟩ := by
          rw [List.append_assoc, List.singleton_append]
          rcases hf c (hr c List.mem_cons_self) with hsame | ⟨hpid, hstep⟩
          · rw [hsame]
            exact ⟨n, hn⟩
          · refine ⟨n + 1, hn.step ?_⟩
            rw [show f c = (c.1, (f c).2) from Prod.ext hpid rfl]
            exact ⟨_, .child hstep⟩
        obtain ⟨m, hm⟩ := hnext
        obtain ⟨m', hm'⟩ := ih (l ++ [f c]) m hm fun d hd => hr d (List.mem_cons_of_mem c hd)
        refine ⟨m', ?_⟩
        rwa [List.append_assoc, List.singleton_append] at hm'
  simpa using hpart [] cs n h fun c hc => hc

/-- As long as the parent has not ended or a child has not exited, somebody can
    make a step. -/
theorem Step.progress (w : World α β π) :
    (∃ w', Step S w w') ∨ S.parent w.parent = none ∧ ∀ c ∈ w.children, S.child c.2 = none := by
  obtain ⟨a, cs, rs⟩ := w
  by_cases hchild : ∀ c ∈ cs, S.child c.2 = none
  · cases hp : S.parent a with
    | none => exact Or.inr ⟨rfl, hchild⟩
    | some x =>
        obtain ⟨x, b⟩ := x
        refine Or.inl ?_
        cases x with
        | quiet => exact ⟨_, _, .quiet hp⟩
        | fork p c => exact ⟨_, _, .fork hp⟩
        | wait p =>
            by_cases hno : ∀ c ∈ cs, c.1 ≠ p
            · exact ⟨_, _, .waitFail hp hno⟩
            · push Not at hno
              obtain ⟨c, hc, rfl⟩ := hno
              obtain ⟨l, r, rfl⟩ := List.append_of_mem hc
              exact ⟨_, _, .wait hp (hchild c hc)⟩
  · push Not at hchild
    obtain ⟨c, hc, hne⟩ := hchild
    obtain ⟨c', hc'⟩ := Option.ne_none_iff_exists'.mp hne
    obtain ⟨l, r, rfl⟩ := List.append_of_mem hc
    exact Or.inl ⟨_, _, .child hc'⟩

/-! ## Trails -/

/-- A step of the parent is one it makes alone. -/
theorem Move.parent_eq (h : Move S (.parent a) w w') :
    w.parent = a ∧ ∃ x, S.parent a = some (x, w'.parent) := by
  cases h with
  | quiet hp => exact ⟨rfl, _, hp⟩
  | fork hp => exact ⟨rfl, _, hp⟩
  | wait hp _ => exact ⟨rfl, _, hp⟩
  | waitFail hp _ => exact ⟨rfl, _, hp⟩

/-- A step of a child is one of a child that is there, and nobody else's. -/
theorem Move.child_eq {p : π} {c : β} (h : Move S (.child p c) w w') :
    w'.parent = w.parent ∧ p ∈ w.children.map Prod.fst := by
  cases h with
  | child hc => exact ⟨rfl, by simp⟩

/-- Every step of a trail is made in a world it passes through. -/
theorem Trail.split (h : Trail S a (ms ++ m :: ms') w) :
    ∃ w₁ w₂, Trail S a ms w₁ ∧ Move S m w₁ w₂ := by
  induction ms' using List.reverseRecOn generalizing w with
  | nil =>
      generalize hl : ms ++ [m] = l at h
      cases h with
      | start => simp at hl
      | step h hm =>
          obtain ⟨rfl, hsame⟩ := List.append_inj' hl rfl
          cases hsame
          exact ⟨_, _, h, hm⟩
  | append_singleton l x ih =>
      generalize hl : ms ++ m :: (l ++ [x]) = l' at h
      cases h with
      | start => simp at hl
      | step h hm =>
          rw [← List.cons_append, ← List.append_assoc] at hl
          obtain ⟨rfl, -⟩ := List.append_inj' hl rfl
          exact ih h

/-- The pids of a child's steps are those of forked children. -/
theorem Trail.mem_forks {p : π} {c : β} (hS : Sane S a) (hM : Measured S key left)
    (h : Trail S a ms w) (hc : .child p c ∈ ms) : p ∈ (forks (deeds S ms)).map Prod.fst := by
  obtain ⟨l, r, rfl⟩ := List.append_of_mem hc
  obtain ⟨w₁, w₂, h₁, hm⟩ := h.split
  have hthere := (h₁.tally hS hM).pids.mem_iff.mp
    (by rw [List.map_append]; exact List.mem_append_left _ hm.child_eq.2)
  rw [deeds_append, forks_append, List.map_append]
  exact List.mem_append_left _ hthere

/-! ## The end -/

section End

variable (hS : Sane S a) (hM : Measured S key left) (hend : Path S a acts b)
  (hb : S.parent b = none)
include hS hM hend hb

/-- If the parent ends alone, there is a bound on the steps in any order. -/
theorem Run.length_le (h : Run S a n w) : n ≤ acts.length + work left (forks acts) := by
  obtain ⟨acts', ht⟩ := h.tally hS hM
  obtain ⟨rest, rfl⟩ := hend.prefix_of_end hb ht.path
  have := ht.length
  simp only [List.length_append, forks_append, work_append]
  omega

/-- When nobody can make a step any more, the parent has ended where it ends
    alone, and the number of steps is the bound. -/
theorem Run.length_of_stuck (h : Run S a n w) (hstuck : ∀ w', ¬ Step S w w') :
    n = acts.length + work left (forks acts) ∧ Tally S key left a acts n w ∧ w.parent = b ∧
      ∀ c ∈ w.children, S.child c.2 = none := by
  obtain ⟨acts', ht⟩ := h.tally hS hM
  obtain ⟨w', hw'⟩ | ⟨hstop, hexit⟩ := Step.progress (S := S) w
  · exact absurd hw' (hstuck w')
  have hlen : acts'.length = acts.length :=
    Nat.le_antisymm (hend.prefix_of_end hb ht.path).length_le
      (ht.path.prefix_of_end hstop hend).length_le
  obtain ⟨rfl, hparent⟩ := ht.path.unique hend hlen
  have hwork : work left w.children = 0 := by
    refine List.sum_eq_zero fun x hx => ?_
    obtain ⟨c, hc, rfl⟩ := List.mem_map.mp hx
    exact hM.exited (hexit c hc)
  have := ht.length
  exact ⟨by omega, ht, hparent, hexit⟩

/-- Everybody can be brought to an end, whatever the order so far. -/
theorem Trail.exists_stuck (h : Trail S a ms w) :
    ∃ ms' w', Trail S a (ms ++ ms') w' ∧ ∀ v, ¬ Step S w' v := by
  -- the steps left are at most the bound
  generalize hd : acts.length + work left (forks acts) - ms.length = d
  induction d generalizing ms w with
  | zero =>
      refine ⟨[], w, by simpa using h, fun v hv => ?_⟩
      have := Run.length_le hS hM hend hb (h.run.step hv)
      omega
  | succ d ih =>
      by_cases hstuck : ∀ v, ¬ Step S w v
      · exact ⟨[], w, by simpa using h, hstuck⟩
      · push Not at hstuck
        obtain ⟨v, m, hm⟩ := hstuck
        obtain ⟨ms', w', h', hstop⟩ := ih (h.step hm) (by
          rw [List.length_append, List.length_singleton]
          omega)
        exact ⟨m :: ms', w', by simpa using h', hstop⟩

end End

/-! ## Particular orders -/

/-- Nobody has to wait for the children of a parent that does not. -/
theorem Path.trail_alone (h : Path S a acts b) (hw : waits acts = []) :
    ∃ ms, Trail S a ms ⟨b, forks acts, []⟩ ∧ ms.length = acts.length ∧ ∀ p c, .child p c ∉ ms := by
  induction h with
  | nil => exact ⟨[], Trail.start, rfl, fun p c hc => by cases hc⟩
  | @snoc acts b x c h hx ih =>
      rw [waits_append, List.append_eq_nil_iff] at hw
      obtain ⟨ms, ht, hlen, hno⟩ := ih hw.1
      have hm : Move S (.parent b) ⟨b, forks acts, []⟩ ⟨c, forks (acts ++ [x]), []⟩ := by
        rw [forks_append]
        cases x with
        | quiet =>
            rw [forks_quiet, List.append_nil]
            exact .quiet hx
        | fork p d => exact .fork hx
        | wait p => simp at hw
      refine ⟨ms ++ [.parent b], ht.step hm, by simp [hlen], fun p d hd => ?_⟩
      rcases List.mem_append.mp hd with hd | hd
      · exact hno p d hd
      · cases List.mem_singleton.mp hd

theorem Path.run_alone (h : Path S a acts b) (hw : waits acts = []) :
    Run S a acts.length ⟨b, forks acts, []⟩ := by
  obtain ⟨ms, ht, hlen, -⟩ := h.trail_alone hw
  exact hlen ▸ ht.run

/-- The place at which a child is forked. -/
theorem Path.exists_fork {p : π} {d : β} (h : Path S a acts b) (hd : (p, d) ∈ forks acts) :
    ∃ acts₁ b₁ c₁ rest, Path S a acts₁ b₁ ∧ S.parent b₁ = some (.fork p d, c₁) ∧
      acts = acts₁ ++ [.fork p d] ++ rest := by
  induction h with
  | nil => simp at hd
  | @snoc acts b x c h hx ih =>
      rw [forks_append, List.mem_append] at hd
      rcases hd with hd | hd
      · obtain ⟨acts₁, b₁, c₁, rest, h₁, hfork, rfl⟩ := ih hd
        exact ⟨acts₁, b₁, c₁, rest ++ [x], h₁, hfork, by simp⟩
      · cases x with
        | fork q e =>
            obtain ⟨rfl, rfl⟩ := Prod.mk.inj (List.mem_singleton.mp hd)
            exact ⟨acts, b, c, [], h, hx, by simp⟩
        | _ => simp at hd

/-- One child goes on to its exit, and nobody else. -/
theorem Trail.run_child (hM : Measured S key left) {p : π} {c : β} {l r rs : List (π × β)}
    (h : Trail S a ms ⟨b, l ++ (p, c) :: r, rs⟩) : ∃ ms' c',
      Trail S a (ms ++ ms') ⟨b, l ++ (p, c') :: r, rs⟩ ∧ S.child c' = none := by
  -- by the steps left to the child
  generalize hn : left c = n
  induction n generalizing ms c with
  | zero =>
      cases hc : S.child c with
      | none => exact ⟨[], c, by simpa using h, hc⟩
      | some c' =>
          have := hM.left_eq hc
          omega
  | succ n ih =>
      cases hc : S.child c with
      | none =>
          have := hM.exited hc
          omega
      | some c' =>
          have hleft := hM.left_eq hc
          obtain ⟨ms', d, h', hd⟩ := ih (h.step (.child hc)) (by omega)
          exact ⟨.child p c :: ms', d, by simpa using h', hd⟩

end ForkJoin
end ProcSched
