/-
  ProcSched.Lib.Printing

  Forking programs that print.  `System.printing` adds the lines to a system of
  `ForkJoin`: the parent prints after its steps, a child before its first step
  and before its exit, one line in a step, and the lines of all of them come
  interleaved into one `transcript`.

  The lines of the parent are those it prints alone (`Trail.speech`).  A child
  prints nothing before its fork and all its lines before it is waited for
  (`Trail.owed`), so that in every order in which everybody comes to its end the
  lines of each are the same (`Trail.finished`).
-/

import Mathlib.Data.List.Nodup
import ProcSched.Lib.ForkJoin

namespace ProcSched
namespace ForkJoin

/-- What the programs print. -/
structure Voice (α τ : Type) where
  /-- by the parent, after its step from a place -/
  tells : α → List τ
  /-- by the child forked at a place, before its first step -/
  greets : α → List τ
  /-- by the child forked at a place, before its exit -/
  parts : α → List τ

/-- A parent, and what it has to print before its next step. -/
structure Speaker (α τ : Type) where
  state : α
  todo : List τ

/-- A child, and what it has to print before its next step and before its exit. -/
structure Kid (β τ : Type) where
  state : β
  todo : List τ
  last : List τ

def Action.map {π β γ : Type} (f : β → γ) : Action π β → Action π γ
  | .quiet => .quiet
  | .fork p c => .fork p (f c)
  | .wait p => .wait p

variable {α β π τ κ : Type}

/-- A step of a child: it prints before its exit is the only step left. -/
def Kid.step (S : System α β π) (c : Kid β τ) : Option (Kid β τ) :=
  match c.todo with
  | _ :: l => some { c with todo := l }
  | [] => (S.child c.state).map fun c' =>
    if (S.child c').isNone then
      match c.last with
      | _ :: l => { c with last := l }
      | [] => { c with state := c' }
    else { c with state := c' }

/-- The line a child prints in its next step. -/
def Kid.line (S : System α β π) (c : Kid β τ) : Option τ :=
  match c.todo with
  | x :: _ => some x
  | [] => (S.child c.state).bind fun c' => if (S.child c').isNone then c.last.head? else none

/-- The system with its lines. -/
def System.printing (S : System α β π) (V : Voice α τ) : System (Speaker α τ) (Kid β τ) π where
  parent a :=
    match a.todo with
    | _ :: l => some (.quiet, ⟨a.state, l⟩)
    | [] => (S.parent a.state).map fun x =>
      (x.1.map fun c => ⟨c, V.greets a.state, V.parts a.state⟩, ⟨x.2, V.tells a.state⟩)
  child := Kid.step S

/-- The line printed in a step, with the process that prints it: `none` for the
    parent. -/
def Mover.line (S : System α β π) : Mover (Speaker α τ) (Kid β τ) π → Option (Option π × τ)
  | .parent a => a.todo.head?.map fun x => (none, x)
  | .child p c => (c.line S).map fun x => (some p, x)

/-- The lines printed, oldest first. -/
def transcript (S : System α β π) (ms : List (Mover (Speaker α τ) (Kid β τ) π)) :
    List (Option π × τ) :=
  ms.filterMap (Mover.line S)

/-- The lines of one process. -/
def heard [DecidableEq π] (who : Option π) (out : List (Option π × τ)) : List τ :=
  out.filterMap fun e => if e.1 = who then some e.2 else none

/-- The lines of several processes, one process after the other. -/
def spoken (l : List (Option π × List τ)) : List (Option π × τ) :=
  l.flatMap fun e => e.2.map fun x => (e.1, x)

/-- What a child has still to print. -/
def Kid.owed (S : System α β π) (c : Kid β τ) : List τ :=
  c.todo ++ if (S.child c.state).isNone then [] else c.last

/-- The steps of the parent that are not for printing. -/
def plain (S : System α β π) (ms : List (Mover (Speaker α τ) (Kid β τ) π)) :
    List (Action π β) :=
  ms.filterMap fun m =>
    match m with
    | .parent ⟨b, []⟩ => (S.parent b).map Prod.fst
    | _ => none

/-- The lines of the parent on its way, from `opening` on. -/
inductive Speech (S : System α β π) (V : Voice α τ) (a : α) (opening : List τ) :
    List (Action π β) → List τ → α → Prop
  | nil : Speech S V a opening [] opening a
  | snoc {acts l b x c} (h : Speech S V a opening acts l b) (hx : S.parent b = some (x, c)) :
      Speech S V a opening (acts ++ [x]) (l ++ V.tells b) c

variable {S : System α β π} {V : Voice α τ} {a b : α} {opening l : List τ}
  {acts : List (Action π β)} {ms ms' : List (Mover (Speaker α τ) (Kid β τ) π)}
  {w w' : World (Speaker α τ) (Kid β τ) π}

theorem Speech.path (h : Speech S V a opening acts l b) : Path S a acts b := by
  induction h with
  | nil => exact Path.nil
  | snoc h hx ih => exact ih.snoc hx

theorem Speech.unique {acts' : List (Action π β)} {l' : List τ} {b' : α}
    (h : Speech S V a opening acts l b) (h' : Speech S V a opening acts' l' b')
    (hlen : acts.length = acts'.length) : l = l' ∧ b = b' := by
  induction h generalizing acts' l' b' with
  | nil =>
      cases h' with
      | nil => exact ⟨rfl, rfl⟩
      | snoc h' hx' => simp at hlen
  | snoc h hx ih =>
      cases h' with
      | nil => simp at hlen
      | snoc h' hx' =>
          simp only [List.length_append, List.length_singleton, Nat.add_right_cancel_iff] at hlen
          obtain ⟨rfl, rfl⟩ := ih h' hlen
          rw [hx, Option.some.injEq, Prod.mk.injEq] at hx'
          exact ⟨rfl, hx'.2⟩

/-- The parent prints a line for the place it comes from. -/
theorem Speech.told (h : Speech S V a opening acts l b) {x : τ} (hx : x ∈ l) :
    x ∈ opening ∨ ∃ acts₁ b₁ y c₁ rest, Path S a acts₁ b₁ ∧ S.parent b₁ = some (y, c₁) ∧
      x ∈ V.tells b₁ ∧ Path S c₁ rest b ∧ acts = acts₁ ++ [y] ++ rest := by
  induction h with
  | nil => exact Or.inl hx
  | @snoc acts l b y c h hy ih =>
      rcases List.mem_append.mp hx with hx | hx
      · obtain hopen | ⟨acts₁, b₁, y₁, c₁, rest, h₁, hy₁, htold, hrest, rfl⟩ := ih hx
        · exact Or.inl hopen
        · exact Or.inr ⟨acts₁, b₁, y₁, c₁, _, h₁, hy₁, htold, hrest.snoc hy, by simp⟩
      · exact Or.inr ⟨acts, b, y, c, [], h.path, hy, hx, Path.nil, by simp⟩

/-! ## Lines -/

@[simp] theorem transcript_nil :
    transcript S ([] : List (Mover (Speaker α τ) (Kid β τ) π)) = [] := rfl

@[simp] theorem transcript_append (l m : List (Mover (Speaker α τ) (Kid β τ) π)) :
    transcript S (l ++ m) = transcript S l ++ transcript S m :=
  List.filterMap_append

theorem transcript_singleton (m : Mover (Speaker α τ) (Kid β τ) π) :
    transcript S [m] = (m.line S).toList := by
  cases h : m.line S <;> simp [transcript, h]

/-- The steps up to a line of the transcript. -/
theorem transcript_split {l r : List (Option π × τ)} {e : Option π × τ}
    (h : transcript S ms = l ++ e :: r) :
    ∃ ms₁ m ms₂, ms = ms₁ ++ m :: ms₂ ∧ transcript S ms₁ = l ∧ m.line S = some e := by
  obtain ⟨ms₁, ms', rfl, hl, h'⟩ := List.filterMap_eq_append_iff.mp h
  obtain ⟨ms₀, m, ms₂, rfl, hnone, hm, -⟩ := List.filterMap_eq_cons_iff.mp h'
  refine ⟨ms₁ ++ ms₀, m, ms₂, by simp, ?_, hm⟩
  rw [transcript_append, show transcript S ms₀ = [] from List.filterMap_eq_nil_iff.mpr hnone,
    List.append_nil]
  exact hl

theorem spoken_cons (e : Option π × List τ) (l : List (Option π × List τ)) :
    spoken (e :: l) = e.2.map (fun x => (e.1, x)) ++ spoken l := rfl

section Heard

variable [DecidableEq π] {who : Option π} {out : List (Option π × τ)}

@[simp] theorem heard_nil : heard who ([] : List (Option π × τ)) = [] := rfl

@[simp] theorem heard_append (l m : List (Option π × τ)) :
    heard who (l ++ m) = heard who l ++ heard who m :=
  List.filterMap_append

theorem heard_cons_self (who : Option π) (x : τ) (out : List (Option π × τ)) :
    heard who ((who, x) :: out) = x :: heard who out := by
  simp [heard]

theorem heard_cons_ne {e : Option π × τ} (h : e.1 ≠ who) : heard who (e :: out) = heard who out := by
  simp [heard, h]

theorem mem_heard {x : τ} : x ∈ heard who out ↔ (who, x) ∈ out := by
  simp only [heard, List.mem_filterMap, Option.ite_none_right_eq_some, Option.some.injEq]
  constructor
  · rintro ⟨e, he, rfl, rfl⟩
    exact he
  · intro h
    exact ⟨_, h, rfl, rfl⟩

theorem heard_map_self (who : Option π) (xs : List τ) :
    heard who (xs.map fun x => (who, x)) = xs := by
  rw [heard, List.filterMap_map]
  exact (List.filterMap_congr fun x _ => if_pos rfl).trans List.filterMap_some

/-- What the parent alone has printed. -/
theorem eq_map_heard (h : ∀ p, heard (some p) out = []) :
    out = (heard none out).map fun x => (none, x) := by
  induction out with
  | nil => rfl
  | cons e out ih =>
      obtain ⟨_ | p, x⟩ := e
      · rw [heard_cons_self, List.map_cons, ← ih fun p => by
          have := h p
          rwa [heard_cons_ne (Option.some_ne_none p).symm] at this]
      · have := h p
        rw [heard_cons_self] at this
        cases this

theorem heard_spoken_of_not_mem {l : List (Option π × List τ)} (h : who ∉ l.map Prod.fst) :
    heard who (spoken l) = [] := by
  rw [List.eq_nil_iff_forall_not_mem]
  intro x hx
  obtain ⟨e, he, hx⟩ := List.mem_flatMap.mp (mem_heard.mp hx)
  obtain ⟨y, -, heq⟩ := List.mem_map.mp hx
  rw [← (Prod.mk.inj heq).1] at h
  exact h (List.mem_map_of_mem he)

theorem heard_spoken {l : List (Option π × List τ)} (hnodup : (l.map Prod.fst).Nodup)
    {xs : List τ} (h : (who, xs) ∈ l) : heard who (spoken l) = xs := by
  induction l with
  | nil => simp at h
  | cons e l ih =>
      rw [List.map_cons, List.nodup_cons] at hnodup
      rw [spoken_cons, heard_append]
      rcases List.mem_cons.mp h with rfl | h
      · rw [heard_map_self, heard_spoken_of_not_mem hnodup.1, List.append_nil]
      · have hne : e.1 ≠ who := fun he => hnodup.1 (he ▸ List.mem_map_of_mem h)
        have hother : heard who (e.2.map fun x => (e.1, x)) = [] := by
          rw [heard, List.filterMap_map, List.filterMap_eq_nil_iff]
          exact fun x _ => if_neg hne
        rw [hother, List.nil_append, ih hnodup.2 h]

theorem heard_parent (a : Speaker α τ) : heard who ((.parent a :
    Mover (Speaker α τ) (Kid β τ) π).line S).toList =
      if who = none then a.todo.head?.toList else [] := by
  rw [Mover.line]
  by_cases hw : who = none
  · subst hw
    cases a.todo.head? <;> simp [heard]
  · rw [if_neg hw]
    cases a.todo.head? <;> simp [heard, Ne.symm hw]

theorem heard_child (p : π) (c : Kid β τ) : heard who ((.child p c :
    Mover (Speaker α τ) (Kid β τ) π).line S).toList =
      if who = some p then (c.line S).toList else [] := by
  rw [Mover.line]
  by_cases hw : who = some p
  · subst hw
    cases c.line S <;> simp [heard]
  · rw [if_neg hw]
    cases c.line S <;> simp [heard, Ne.symm hw]

/-- Transcripts in which every process prints the same lines have the same lines. -/
theorem perm_of_heard {out' : List (Option π × τ)} (h : ∀ who, heard who out = heard who out') :
    out.Perm out' := by
  classical
  rw [List.perm_iff_count]
  rintro ⟨who, x⟩
  have hcount : ∀ l : List (Option π × τ), l.count (who, x) = (heard who l).count x := by
    intro l
    induction l with
    | nil => rfl
    | cons e l ih =>
        obtain ⟨who', y⟩ := e
        by_cases hw : who' = who
        · subst hw
          rw [heard_cons_self, List.count_cons, List.count_cons, ih]
          simp
        · rw [heard_cons_ne hw, List.count_cons_of_ne (fun he => hw (Prod.mk.inj he).1), ih]
  rw [hcount, hcount, h who]

end Heard

/-! ## The parent with its lines -/

@[simp] theorem Action.map_quiet {γ : Type} (f : β → γ) :
    (Action.quiet : Action π β).map f = .quiet := rfl

@[simp] theorem Action.map_fork {γ : Type} (f : β → γ) (p : π) (c : β) :
    (Action.fork p c).map f = .fork p (f c) := rfl

@[simp] theorem Action.map_wait {γ : Type} (f : β → γ) (p : π) :
    (Action.wait p : Action π β).map f = .wait p := rfl

/-- A step of the parent is a line, or a step of its own with the lines for it. -/
theorem printing_parent {a b : Speaker α τ} {y : Action π (Kid β τ)}
    (h : (S.printing V).parent a = some (y, b)) :
    (∃ x l, a = ⟨b.state, x :: l⟩ ∧ y = .quiet ∧ b.todo = l) ∨
      ∃ x, a = ⟨a.state, []⟩ ∧ S.parent a.state = some (x, b.state) ∧
        y = (x.map fun c => ⟨c, V.greets a.state, V.parts a.state⟩) ∧
        b.todo = V.tells a.state := by
  obtain ⟨a, todo⟩ := a
  cases todo with
  | cons x l =>
      obtain ⟨rfl, rfl⟩ := Prod.mk.inj (Option.some.inj h)
      exact Or.inl ⟨x, l, rfl, rfl, rfl⟩
  | nil =>
      obtain ⟨⟨x, c⟩, hx, heq⟩ := Option.map_eq_some_iff.mp h
      obtain ⟨rfl, rfl⟩ := Prod.mk.inj heq
      exact Or.inr ⟨x, rfl, hx, rfl, rfl⟩

@[simp] theorem plain_nil :
    plain S ([] : List (Mover (Speaker α τ) (Kid β τ) π)) = [] := rfl

@[simp] theorem plain_append (l m : List (Mover (Speaker α τ) (Kid β τ) π)) :
    plain S (l ++ m) = plain S l ++ plain S m :=
  List.filterMap_append

theorem plain_step {x : Action π β} (h : S.parent a = some (x, b)) :
    plain S [(.parent ⟨a, []⟩ : Mover (Speaker α τ) (Kid β τ) π)] = [x] := by
  simp [plain, h]

/-- The parent does with the children what it does alone. -/
theorem deeds_printing (V : Voice α τ) (ms : List (Mover (Speaker α τ) (Kid β τ) π)) :
    (forks (deeds (S.printing V) ms)).map (fun c => (c.1, c.2.state)) = forks (plain S ms) ∧
      waits (deeds (S.printing V) ms) = waits (plain S ms) := by
  induction ms with
  | nil => exact ⟨rfl, rfl⟩
  | cons m ms ih =>
      obtain ⟨hforks, hwaits⟩ := ih
      rw [← List.singleton_append, deeds_append, plain_append, forks_append, forks_append,
        waits_append, waits_append, List.map_append, hforks, hwaits]
      refine ⟨congrArg (· ++ _) ?_, congrArg (· ++ _) ?_⟩
      all_goals
        cases m with
        | child p c => rfl
        | parent b =>
            obtain ⟨b, _ | ⟨x, l⟩⟩ := b
            · cases hx : S.parent b with
              | none => simp [deeds, plain, System.printing, hx]
              | some x =>
                  obtain ⟨_ | _ | _, c⟩ := x <;> simp [deeds, plain, System.printing, hx, forks, waits]
            · rfl

/-- The lines of the parent, in any order of the steps. -/
theorem Trail.speech [DecidableEq π] (h : Trail (S.printing V) ⟨a, opening⟩ ms w) :
    Speech S V a opening (plain S ms) (heard none (transcript S ms) ++ w.parent.todo)
      w.parent.state := by
  induction h with
  | start => exact Speech.nil
  | @step ms m w w' h hm ih =>
      rw [plain_append, transcript_append, heard_append, transcript_singleton]
      cases m with
      | child p c =>
          obtain ⟨hparent, -⟩ := hm.child_eq
          rw [heard_child, if_neg (Option.some_ne_none p).symm, List.append_nil, hparent,
            show plain S [(.child p c : Mover (Speaker α τ) (Kid β τ) π)] = [] from rfl,
            List.append_nil]
          exact ih
      | parent b =>
          obtain ⟨rfl, y, hy⟩ := hm.parent_eq
          rcases printing_parent hy with ⟨x, l, hw, -, hl⟩ | ⟨x, hw, hx, -, hl⟩
          · -- a line
            rw [hw] at ih ⊢
            rw [show plain S [(.parent ⟨w'.parent.state, x :: l⟩ :
                Mover (Speaker α τ) (Kid β τ) π)] = [] from rfl, List.append_nil, hl]
            simpa [heard_parent] using ih
          · -- a step of its own
            rw [hw] at ih ⊢
            rw [plain_step hx, hl]
            simpa [heard_parent] using ih.snoc hx

/-- What has happened before a line of the parent. -/
theorem Trail.told [DecidableEq π] (h : Trail (S.printing V) ⟨a, opening⟩ ms w)
    {l r : List (Option π × τ)} {x : τ} (hout : transcript S ms = l ++ (none, x) :: r) :
    ∃ ms₁ ms₂ w₁, ms = ms₁ ++ ms₂ ∧ Trail (S.printing V) ⟨a, opening⟩ ms₁ w₁ ∧
      transcript S ms₁ = l ∧ (x ∈ opening ∨ ∃ acts₁ b₁ y c₁ rest, Path S a acts₁ b₁ ∧
        S.parent b₁ = some (y, c₁) ∧ x ∈ V.tells b₁ ∧ Path S c₁ rest w₁.parent.state ∧
          plain S ms₁ = acts₁ ++ [y] ++ rest) := by
  obtain ⟨ms₁, m, ms₂, rfl, hl, hline⟩ := transcript_split hout
  obtain ⟨w₁, w₂, h₁, hm⟩ := h.split
  refine ⟨ms₁, _, w₁, rfl, h₁, hl, h₁.speech.told (List.mem_append_right _ ?_)⟩
  cases m with
  | child p c =>
      obtain ⟨y, -, heq⟩ := Option.map_eq_some_iff.mp hline
      cases (Prod.mk.inj heq).1
  | parent b =>
      obtain ⟨y, hy, heq⟩ := Option.map_eq_some_iff.mp hline
      obtain rfl := (Prod.mk.inj heq).2
      rw [hm.parent_eq.1]
      exact List.mem_of_mem_head? hy

/-- The parent comes nowhere else for its lines. -/
theorem Path.erase {acts : List (Action π (Kid β τ))} {b : Speaker α τ}
    (h : Path (S.printing V) ⟨a, opening⟩ acts b) : ∃ acts', Path S a acts' b.state ∧
      (forks acts).map (fun c => (c.1, c.2.state)) = forks acts' ∧ waits acts = waits acts' := by
  induction h with
  | nil => exact ⟨[], Path.nil, rfl, rfl⟩
  | @snoc acts b y c h hy ih =>
      obtain ⟨acts', hpath, hforks, hwaits⟩ := ih
      rcases printing_parent hy with ⟨x, l, rfl, rfl, -⟩ | ⟨x, -, hx, rfl, -⟩
      · exact ⟨acts', hpath, by simpa using hforks, by simpa using hwaits⟩
      · refine ⟨acts' ++ [x], hpath.snoc hx, ?_, ?_⟩
        · rw [forks_append, forks_append, List.map_append, hforks]
          cases x <;> rfl
        · rw [waits_append, waits_append, hwaits]
          cases x <;> rfl

theorem Path.erase_pids {acts : List (Action π (Kid β τ))} {b : Speaker α τ}
    (h : Path (S.printing V) ⟨a, opening⟩ acts b) : ∃ acts', Path S a acts' b.state ∧
      (forks acts).map Prod.fst = (forks acts').map Prod.fst ∧ waits acts = waits acts' := by
  obtain ⟨acts', hpath, hforks, hwaits⟩ := h.erase
  have hpids := congrArg (List.map Prod.fst) hforks
  rw [List.map_map] at hpids
  exact ⟨acts', hpath, hpids, hwaits⟩

/-- A child starts with the lines for the place it was forked at, which is on the
    way of the parent. -/
theorem Path.mem_forks {acts : List (Action π (Kid β τ))} {b : Speaker α τ} {p : π} {k : Kid β τ}
    (h : Path (S.printing V) ⟨a, opening⟩ acts b) (hk : (p, k) ∈ forks acts) :
    ∃ acts₁ b₁ c₁ rest, Path S a acts₁ b₁ ∧ S.parent b₁ = some (.fork p k.state, c₁) ∧
      k.todo = V.greets b₁ ∧ k.last = V.parts b₁ ∧ Path S c₁ rest b.state := by
  induction h with
  | nil => simp at hk
  | @snoc acts b y c h hy ih =>
      rw [forks_append, List.mem_append] at hk
      rcases hk with hk | hk
      · -- forked on the way to b
        obtain ⟨acts₁, b₁, c₁, rest, hpath, hfork, htodo, hlast, hrest⟩ := ih hk
        rcases printing_parent hy with ⟨x, l, rfl, -, -⟩ | ⟨x, -, hx, -, -⟩
        · exact ⟨acts₁, b₁, c₁, rest, hpath, hfork, htodo, hlast, hrest⟩
        · exact ⟨acts₁, b₁, c₁, _, hpath, hfork, htodo, hlast, hrest.snoc hx⟩
      · -- forked in the last step, which is then no line
        rcases printing_parent hy with ⟨x, l, -, rfl, -⟩ | ⟨x, -, hx, rfl, -⟩
        · simp at hk
        · obtain ⟨acts', hpath, -⟩ := h.erase
          cases x with
          | fork p' d =>
              rw [Action.map_fork, forks_fork, List.mem_singleton, Prod.mk.injEq] at hk
              obtain ⟨rfl, rfl⟩ := hk
              exact ⟨acts', _, _, [], hpath, hx, rfl, rfl, Path.nil⟩
          | _ => simp at hk

theorem Sane.printing (h : Sane S a) (V : Voice α τ) (opening : List τ) :
    Sane (S.printing V) ⟨a, opening⟩ where
  fork {acts b p c b'} hpath hb := by
    obtain ⟨acts', hpath', hpids, -⟩ := hpath.erase_pids
    rcases printing_parent hb with ⟨x, l, -, hx, -⟩ | ⟨x, -, hx, heq, -⟩
    · cases hx
    · cases x with
      | fork p' d =>
          rw [Action.map_fork, Action.fork.injEq] at heq
          rw [heq.1, hpids]
          exact h.fork hpath' hx
      | _ => cases heq
  wait {acts b p b'} hpath hb := by
    obtain ⟨acts', hpath', hpids, hwaits⟩ := hpath.erase_pids
    rcases printing_parent hb with ⟨x, l, -, hx, -⟩ | ⟨x, -, hx, heq, -⟩
    · cases hx
    · cases x with
      | wait p' =>
          rw [Action.map_wait, Action.wait.injEq] at heq
          rw [heq, hpids, hwaits]
          exact h.wait hpath' hx
      | _ => cases heq

/-- The parent comes to its end with its lines. -/
theorem Path.printing (V : Voice α τ) (opening : List τ) (h : Path S a acts b) :
    ∃ acts', Path (S.printing V) ⟨a, opening⟩ acts' ⟨b, []⟩ := by
  -- what is to be printed can be printed
  have hprint : ∀ l acts' b, Path (S.printing V) ⟨a, opening⟩ acts' ⟨b, l⟩ →
      ∃ acts', Path (S.printing V) ⟨a, opening⟩ acts' ⟨b, []⟩ := by
    intro l
    induction l with
    | nil => exact fun acts' b hpath => ⟨acts', hpath⟩
    | cons x l ih => exact fun acts' b hpath => ih _ b (hpath.snoc rfl)
  induction h with
  | nil => exact hprint opening [] a Path.nil
  | @snoc acts b x c h hx ih =>
      obtain ⟨acts', hpath⟩ := ih
      refine hprint (V.tells b) _ c (hpath.snoc (x := x.map fun c => ⟨c, V.greets b, V.parts b⟩) ?_)
      show (S.parent b).map _ = _
      rw [hx]
      rfl

/-! ## The children with their lines -/

/-- A step of a child is a line, or a step of its own. -/
theorem Kid.step_cases {c c' : Kid β τ} (h : c.step S = some c') :
    (c'.state = c.state ∧ ∃ x, c.line S = some x ∧ c.owed S = x :: c'.owed S) ∨
      S.child c.state = some c'.state ∧ c'.todo = [] ∧ c'.last = c.last ∧ c.line S = none ∧
        c.owed S = c'.owed S := by
  obtain ⟨state, todo, last⟩ := c
  cases todo with
  | cons x l =>
      obtain rfl := Option.some.inj h
      exact Or.inl ⟨rfl, x, rfl, rfl⟩
  | nil =>
      obtain ⟨d, hd, heq⟩ := Option.map_eq_some_iff.mp h
      simp only at hd heq
      cases hexit : S.child d with
      | none =>
          simp only [hexit, Option.isNone_none, if_true] at heq
          cases last with
          | cons x l =>
              obtain rfl := heq
              exact Or.inl ⟨rfl, x, by simp [line, hd, hexit], by simp [owed, hd]⟩
          | nil =>
              obtain rfl := heq
              exact Or.inr ⟨hd, rfl, rfl, by simp [line, hd], by simp [owed]⟩
      | some e =>
          simp only [hexit, Option.isNone_some, Bool.false_eq_true, if_false] at heq
          obtain rfl := heq
          exact Or.inr ⟨hd, rfl, rfl, by simp [line, hd, hexit], by simp [owed, hd, hexit]⟩

theorem Kid.owed_step {c c' : Kid β τ} (h : c.step S = some c') :
    (c.line S).toList ++ c'.owed S = c.owed S := by
  rcases Kid.step_cases h with ⟨-, x, hline, howed⟩ | ⟨-, -, -, hline, howed⟩
  · rw [hline, howed]
    rfl
  · rw [hline, howed]
    rfl

theorem Kid.step_eq_none {c : Kid β τ} (h : c.step S = none) :
    S.child c.state = none ∧ c.owed S = [] := by
  obtain ⟨state, todo, last⟩ := c
  cases todo with
  | cons x l => cases h
  | nil =>
      have hnone := Option.map_eq_none_iff.mp h
      simp only at hnone
      exact ⟨hnone, by simp [owed, hnone]⟩

theorem Measured.printing {key : β → κ} {left : β → ℕ} (h : Measured S key left) (V : Voice α τ) :
    Measured (S.printing V) (fun c => key c.state) fun c => left c.state + (c.owed S).length where
  key_eq {c c'} hc := by
    rcases Kid.step_cases hc with ⟨hsame, -⟩ | ⟨hstep, -⟩
    · simp only [hsame]
    · exact h.key_eq hstep
  left_eq {c c'} hc := by
    rcases Kid.step_cases hc with ⟨hsame, x, -, howed⟩ | ⟨hstep, -, -, -, howed⟩
    · simp only [hsame, howed, List.length_cons]
      omega
    · simp only [howed, h.left_eq hstep]
      omega
  exited {c} hc := by
    obtain ⟨hnone, howed⟩ := Kid.step_eq_none hc
    simp only [h.exited hnone, howed, List.length_nil]

/-! ## Any order of the steps and lines -/

section

variable [DecidableEq π] {key : β → κ} {left : β → ℕ} (hS : Sane S a) (hM : Measured S key left)
include hS hM

omit hS hM in
/-- A line of a child is printed in a step of the child. -/
theorem exists_child_of_heard {p : π} {x : τ} (hx : x ∈ heard (some p) (transcript S ms)) :
    ∃ c, .child p c ∈ ms := by
  obtain ⟨m, hm, hline⟩ := List.mem_filterMap.mp (mem_heard.mp hx)
  cases m with
  | parent b =>
      obtain ⟨y, -, heq⟩ := Option.map_eq_some_iff.mp hline
      cases (Prod.mk.inj heq).1
  | child q c =>
      obtain ⟨y, -, heq⟩ := Option.map_eq_some_iff.mp hline
      obtain rfl := Option.some.inj (Prod.mk.inj heq).1
      exact ⟨c, hm⟩

/-- Nothing is heard of a child that has not been forked. -/
theorem Trail.unheard (h : Trail (S.printing V) ⟨a, opening⟩ ms w) {p : π}
    (hp : p ∉ (forks (deeds (S.printing V) ms)).map Prod.fst) :
    heard (some p) (transcript S ms) = [] := by
  rw [List.eq_nil_iff_forall_not_mem]
  intro x hx
  obtain ⟨c, hc⟩ := exists_child_of_heard hx
  exact hp (h.mem_forks (hS.printing V opening) (hM.printing V) hc)

/-- A child has printed its lines up to those it has still to print. -/
theorem Trail.owed (h : Trail (S.printing V) ⟨a, opening⟩ ms w) :
    ∀ c ∈ w.children ++ w.reaped, ∃ k, (c.1, k) ∈ forks (deeds (S.printing V) ms) ∧
      heard (some c.1) (transcript S ms) ++ c.2.owed S = k.owed S := by
  have hS' := hS.printing V opening
  have hM' := hM.printing V
  induction h with
  | start => exact fun c hc => by simp at hc
  | @step ms m w w' h hm ih =>
      have ht := h.tally hS' hM'
      have hnodup := ht.pids.nodup_iff.mpr (hS'.nodup ht.path)
      rw [deeds_append, forks_append, transcript_append, transcript_singleton]
      -- a step of the parent prints no line of a child
      have hkeep : ∀ c : π × Kid β τ, ∀ b, m = .parent b → (∃ k,
          (c.1, k) ∈ forks (deeds (S.printing V) ms) ∧
            heard (some c.1) (transcript S ms) ++ c.2.owed S = k.owed S) → ∃ k,
          (c.1, k) ∈ forks (deeds (S.printing V) ms) ++ forks (deeds (S.printing V) [m]) ∧
            heard (some c.1) (transcript S ms ++ (m.line S).toList) ++ c.2.owed S = k.owed S := by
        rintro c b rfl ⟨k, hk, howed⟩
        refine ⟨k, List.mem_append_left _ hk, ?_⟩
        rw [heard_append, heard_parent, if_neg (Option.some_ne_none _), List.append_nil]
        exact howed
      cases hm with
      | quiet _ => exact fun c hc => hkeep c _ rfl (ih c hc)
      | waitFail _ _ => exact fun c hc => hkeep c _ rfl (ih c hc)
      | wait _ _ =>
          refine fun c hc => hkeep c _ rfl (ih c ?_)
          simp only [List.mem_append, List.mem_cons, List.not_mem_nil, or_false] at hc ⊢
          tauto
      | @fork a₁ b₁ p k cs rs hp =>
          intro c hc
          simp only [List.mem_append, List.mem_singleton] at hc
          rcases hc with (hc | rfl) | hc
          · exact hkeep c _ rfl (ih c (List.mem_append_left _ hc))
          · -- a new child
            have hnew := h.unheard hS hM (hS'.fork ht.path hp)
            refine ⟨k, List.mem_append_right _ (by rw [deeds_parent hp, forks_fork]; simp), ?_⟩
            rw [heard_append, heard_parent, if_neg (Option.some_ne_none _), hnew]
            rfl
          · exact hkeep c _ rfl (ih c (List.mem_append_right _ hc))
      | @child a₁ p k k' l r rs hk =>
          have hown := Kid.owed_step (S := S) hk
          intro c hc
          -- the others have other pids
          have hothers : ∀ c ∈ l ++ r ++ rs, c.1 ≠ p := by
            simp only [List.map_append, List.map_cons, List.nodup_append, List.nodup_cons,
              List.mem_append, List.mem_cons, List.mem_map] at hnodup
            rintro d hd rfl
            rcases List.mem_append.mp hd with hd | hd
            · rcases List.mem_append.mp hd with hd | hd
              · exact hnodup.1.2.2 _ ⟨d, hd, rfl⟩ _ (Or.inl rfl) rfl
              · exact hnodup.1.2.1.1 ⟨d, hd, rfl⟩
            · exact hnodup.2.2 _ (Or.inr (Or.inl rfl)) _ ⟨d, hd, rfl⟩ rfl
          rw [deeds_child, forks_nil, List.append_nil, heard_append, heard_child]
          have hsplit : c = (p, k') ∨ c ∈ l ++ r ++ rs := by
            simp only [List.mem_append, List.mem_cons] at hc ⊢
            tauto
          rcases hsplit with rfl | hc'
          · obtain ⟨k₀, hk₀, howed⟩ := ih (p, k) (by simp)
            refine ⟨k₀, hk₀, ?_⟩
            rw [if_pos rfl, List.append_assoc, hown]
            exact howed
          · have hc₀ : c ∈ l ++ (p, k) :: r ++ rs := by
              simp only [List.mem_append, List.mem_cons] at hc' ⊢
              tauto
            obtain ⟨k₀, hk₀, howed⟩ := ih c hc₀
            refine ⟨k₀, hk₀, ?_⟩
            rw [if_neg fun he => hothers c hc' (Option.some.inj he), List.append_nil]
            exact howed

/-- A child that has exited has printed all its lines. -/
theorem Trail.heard_exited (h : Trail (S.printing V) ⟨a, opening⟩ ms w) {p : π} {k c : Kid β τ}
    (hk : (p, k) ∈ forks (deeds (S.printing V) ms)) (hc : (p, c) ∈ w.children ++ w.reaped)
    (hexit : c.step S = none) : heard (some p) (transcript S ms) = k.owed S := by
  have hS' := hS.printing V opening
  obtain ⟨k', hk', howed⟩ := h.owed hS hM (p, c) hc
  obtain ⟨-, hnone⟩ := Kid.step_eq_none hexit
  rw [hnone, List.append_nil] at howed
  -- there is one child of that pid
  have hnodup := hS'.nodup (h.tally hS' (hM.printing V)).path
  have hsame := List.inj_on_of_nodup_map hnodup hk hk' rfl
  rw [howed, (Prod.mk.inj hsame).2]

/-- All lines of a child have been printed when it has been waited for. -/
theorem Trail.heard_reaped (h : Trail (S.printing V) ⟨a, opening⟩ ms w) {p : π} {k : Kid β τ}
    (hk : (p, k) ∈ forks (deeds (S.printing V) ms)) (hp : p ∈ w.reaped.map Prod.fst) :
    heard (some p) (transcript S ms) = k.owed S := by
  obtain ⟨⟨p, c⟩, hc, rfl⟩ := List.mem_map.mp hp
  have ht := h.tally (hS.printing V opening) (hM.printing V)
  exact h.heard_exited hS hM hk (List.mem_append_right _ hc) (ht.exited _ hc)

/-- A child prints nothing behind the wait for it. -/
theorem Trail.heard_waited {ms₁ ms₂ : List (Mover (Speaker α τ) (Kid β τ) π)}
    {w₁ : World (Speaker α τ) (Kid β τ) π} (h : Trail (S.printing V) ⟨a, opening⟩ (ms₁ ++ ms₂) w)
    (h₁ : Trail (S.printing V) ⟨a, opening⟩ ms₁ w₁) {p : π} (hp : p ∈ waits (plain S ms₁)) :
    ∃ k, (p, k) ∈ forks (deeds (S.printing V) ms₁) ∧
      heard (some p) (transcript S ms₁) = k.owed S ∧ heard (some p) (transcript S ms₂) = [] := by
  have hS' := hS.printing V opening
  have hM' := hM.printing V
  have ht₁ := h₁.tally hS' hM'
  have hreaped₁ : p ∈ w₁.reaped.map Prod.fst := by
    rw [ht₁.reaped, (deeds_printing V ms₁).2]
    exact hp
  have hreaped : p ∈ w.reaped.map Prod.fst := by
    rw [(h.tally hS' hM').reaped, deeds_append, waits_append, ← ht₁.reaped]
    exact List.mem_append_left _ hreaped₁
  have hmem := ht₁.pids.mem_iff.mp (by rw [List.map_append]; exact List.mem_append_right _ hreaped₁)
  obtain ⟨⟨p, k⟩, hk, rfl⟩ := List.mem_map.mp hmem
  have hheard₁ := h₁.heard_reaped hS hM hk hreaped₁
  have hheard := h.heard_reaped hS hM (k := k)
    (by rw [deeds_append, forks_append]; exact List.mem_append_left _ hk) hreaped
  rw [transcript_append, heard_append, hheard₁] at hheard
  exact ⟨k, hk, hheard₁, List.append_right_eq_self.mp hheard⟩

/-- When everybody has come to its end, the parent has printed its lines and
    every child its own. -/
theorem Trail.finished (hend : Path S a acts b) (hb : S.parent b = none)
    (h : Trail (S.printing V) ⟨a, opening⟩ ms w) (hstuck : ∀ v, ¬ Step (S.printing V) w v) :
    w.parent = ⟨b, []⟩ ∧ Speech S V a opening acts (heard none (transcript S ms)) b ∧
      (forks (deeds (S.printing V) ms)).map (fun c => (c.1, c.2.state)) = forks acts ∧
      ∀ c ∈ forks (deeds (S.printing V) ms), heard (some c.1) (transcript S ms) = c.2.owed S := by
  have hS' := hS.printing V opening
  have hM' := hM.printing V
  obtain ⟨acts', hpath⟩ := hend.printing V opening
  have hend' : (S.printing V).parent ⟨b, []⟩ = none := by
    show (S.parent b).map _ = none
    rw [hb]
    rfl
  obtain ⟨-, -, hparent, hexit⟩ := h.run.length_of_stuck hS' hM' hpath hend' hstuck
  have ht := h.tally hS' hM'
  have hspeech := h.speech
  rw [hparent, List.append_nil] at hspeech
  have hlen := Nat.le_antisymm (hend.prefix_of_end hb hspeech.path).length_le
    (hspeech.path.prefix_of_end hb hend).length_le
  obtain ⟨hplain, -⟩ := hspeech.path.unique hend hlen
  rw [hplain] at hspeech
  refine ⟨hparent, hspeech, hplain ▸ (deeds_printing V ms).1, fun c hc => ?_⟩
  -- the child is there, and has exited
  have hmem := ht.pids.mem_iff.mpr (List.mem_map_of_mem (f := Prod.fst) hc)
  obtain ⟨⟨p, d⟩, hd, rfl⟩ := List.mem_map.mp hmem
  refine h.heard_exited hS hM hc hd ?_
  rcases List.mem_append.mp hd with hd | hd
  · exact hexit _ hd
  · exact ht.exited _ hd

end

end ForkJoin
end ProcSched
