/-
  ProcSched.Refine.System

  The pieces of a loop body put together again: a parent that is taken through
  its pieces passes the states of the uninterrupted loop (`Body.At`), and its log
  names the children it has forked and waited for (`Logged`).  What a body has to
  guarantee for this is collected in `Body.Runs`, of which the four schedulers
  are instances (`Policy.runs`).
-/

import ProcSched.Model.System
import ProcSched.Refine.Calls
import ProcSched.Refine.Switches

namespace ProcSched

open ForkJoin (Action forks waits Path)

/-! ## Children in the log -/

/-- The entries forked in a list of marks. -/
def forkedOf (l : List (ℕ × Mark)) : List ℕ :=
  l.filterMap fun e =>
    match e.2 with
    | .fork i => some i
    | _ => none

@[simp] theorem forkedOf_nil : forkedOf [] = [] := rfl

@[simp] theorem forkedOf_append (l m : List (ℕ × Mark)) :
    forkedOf (l ++ m) = forkedOf l ++ forkedOf m :=
  List.filterMap_append

theorem forkedOf_eq_nil {l : List (ℕ × Mark)} (h : ∀ c i, (c, Mark.fork i) ∉ l) :
    forkedOf l = [] := by
  rw [forkedOf, List.filterMap_eq_nil_iff]
  rintro ⟨c, m⟩ hm
  cases m with
  | fork i => exact absurd hm (h c i)
  | _ => rfl

theorem forkedOf_forkMarks (W : List Process) (t : ℕ) :
    forkedOf (forkMarks W t) = (List.range W.length).filter fun i => (jobsOf W).release i = t := by
  rw [forkedOf, forkMarks, List.filterMap_map]
  exact List.filterMap_some

theorem forkedOf_trace_succ (W : List Process) (σ : Schedule ℕ) (delay t : ℕ) :
    forkedOf (trace W σ delay (t + 1)) = forkedOf (trace W σ delay t) ++
      (List.range W.length).filter fun i => (jobsOf W).release i = t := by
  have hunit : forkedOf (unitMarks t (σ t) (σ.prev t ≠ σ t)) = [] :=
    forkedOf_eq_nil fun c i hm => by
      obtain ⟨-, j, -, h | ⟨-, h⟩ | h⟩ := mem_unitMarks.mp hm <;> cases h
  have hfinish : forkedOf (finishMarks (t + delay) ((jobsOf W).ended σ (t + 1))) = [] :=
    forkedOf_eq_nil fun c i hm => by
      obtain ⟨-, j, -, h⟩ := mem_finishMarks.mp hm
      cases h
  rw [trace_succ, forkedOf_append, forkedOf_append, forkedOf_append, hunit, hfinish,
    forkedOf_forkMarks, List.append_nil, List.append_nil]

/-- The entries a run has forked are those that have arrived. -/
theorem forkedOf_trace (W : List Process) (σ : Schedule ℕ) (delay t : ℕ) :
    (forkedOf (trace W σ delay t)).Perm
      ((List.range W.length).filter fun i => (jobsOf W).release i < t) := by
  induction t with
  | zero => simp [trace]
  | succ t ih =>
      rw [forkedOf_trace_succ]
      -- the arrivals before `t + 1` are those before `t` and those at `t`
      have hsplit := List.filter_append_perm (fun i => decide ((jobsOf W).release i < t))
        ((List.range W.length).filter fun i => (jobsOf W).release i < t + 1)
      simp only [List.filter_filter] at hsplit
      refine ((ih.append_right _).trans (List.Perm.of_eq ?_)).trans hsplit
      congr 1
      · refine List.filter_congr fun i _ => ?_
        rw [Bool.eq_iff_iff]
        simp only [Bool.and_eq_true, decide_eq_true_eq]
        omega
      · refine List.filter_congr fun i _ => ?_
        rw [Bool.eq_iff_iff]
        simp only [Bool.and_eq_true, Bool.not_eq_true', decide_eq_false_iff_not, decide_eq_true_eq]
        omega

/-- The same children in both logs. -/
structure Log.SameChildren (log log' : Log) : Prop where
  forked : log'.forked = log.forked
  entries : forkedOf log'.marks = forkedOf log.marks
  reaped : log'.reaped = log.reaped

theorem Log.SameChildren.refl (log : Log) : log.SameChildren log := ⟨rfl, rfl, rfl⟩

theorem Log.SameChildren.trans {l m r : Log} (h : l.SameChildren m) (h' : m.SameChildren r) :
    l.SameChildren r :=
  ⟨h'.forked.trans h.forked, h'.entries.trans h.entries, h'.reaped.trans h.reaped⟩

/-- The parent has forked and waited for the children its log names. -/
structure Logged (W : List Process) (acts : List (Action Int Child)) (log : Log) : Prop where
  pids : (forks acts).map Prod.fst = log.forked
  copies : (forks acts).map Prod.snd = (forkedOf log.marks).map fun i => (entry W i).child
  waits : waits acts = log.reaped.map Prod.snd

variable {W : List Process} {acts : List (Action Int Child)} {log log' : Log}

theorem Logged.quiet (h : Logged W acts log) (hsame : log.SameChildren log') :
    Logged W (acts ++ [.quiet]) log' where
  pids := by simp [hsame.forked, h.pids]
  copies := by simp [hsame.entries, h.copies]
  waits := by simp [hsame.reaped, h.waits]

/-! ## The fork scan in pieces -/

/-- A scan of one entry more. -/
theorem forkScan_snoc {now : ℕ} {spawn : ℕ → Process → Log → Except Log (Process × Log)} {i : ℕ}
    {ps qs : List Process} {p p' : Process} {l l₁ l₂ : Log}
    (h : forkScan spawn now i ps l = .ok (qs, l₁))
    (hp : (if p.ready = now then spawn (i + ps.length) p l₁ else .ok (p, l₁)) = .ok (p', l₂)) :
    forkScan spawn now i (ps ++ [p]) l = .ok (qs ++ [p'], l₂) := by
  induction ps generalizing i l qs with
  | nil =>
      simp only [forkScan, Except.ok.injEq, Prod.mk.injEq] at h
      obtain ⟨rfl, rfl⟩ := h
      refine forkScan_cons.mpr ⟨p', l₂, [], ?_, rfl, rfl⟩
      simpa using hp
  | cons x ps ih =>
      obtain ⟨x', l', qs', hx, hrest, rfl⟩ := forkScan_cons.mp h
      refine forkScan_cons.mpr ⟨x', l', qs' ++ [p'], hx, ih hrest ?_, rfl⟩
      rw [← hp, List.length_cons]
      congr 2
      omega

/-- Where a parent is behind the first piece of an iteration. -/
def Outcome.toScan {σ : Type} (o : Outcome σ) : Point σ :=
  match o with
  | .next s => .scan 0 s
  | o => .ended o

namespace Body

variable {σ : Type} (B : Body σ)

/-- Table and log are two variables of the state. -/
structure Lawful : Prop where
  proc_store : ∀ s p l, B.proc (B.store s p l) = p
  now_store : ∀ s p l, B.now (B.store s p l) = B.now s
  log_store : ∀ s p l, B.log (B.store s p l) = l
  store_store : ∀ s p l p' l', B.store (B.store s p l) p' l' = B.store s p' l'
  store_self : ∀ s, B.store s (B.proc s) (B.log s) = s

/-- The scan of `s` has come as far as `proc[i]`, in state `t`. -/
structure ScannedTo (i : ℕ) (s t : σ) : Prop where
  le : i ≤ (B.proc s).length
  scan : ∃ ps, ps.length = i ∧ t = B.store s (ps ++ (B.proc s).drop i) (B.log t) ∧
    forkScan (B.spawn (B.now s)) (B.now s) 0 ((B.proc s).take i) (B.log s) = .ok (ps, B.log t)

variable {B} {s t : σ} {i : ℕ}

theorem ScannedTo.zero (hB : B.Lawful) (s : σ) : B.ScannedTo 0 s s :=
  ⟨Nat.zero_le _, [], rfl, (hB.store_self s).symm, rfl⟩

theorem ScannedTo.now_eq (h : B.ScannedTo i s t) (hB : B.Lawful) : B.now t = B.now s := by
  obtain ⟨ps, -, ht, -⟩ := h.scan
  rw [ht, hB.now_store]

theorem ScannedTo.length_eq (h : B.ScannedTo i s t) (hB : B.Lawful) :
    (B.proc t).length = (B.proc s).length := by
  obtain ⟨ps, hlen, ht, -⟩ := h.scan
  have := h.le
  rw [ht, hB.proc_store, List.length_append, List.length_drop]
  omega

/-- The entries in front of the scan are untouched. -/
theorem ScannedTo.entry_eq (h : B.ScannedTo i s t) (hB : B.Lawful) :
    entry (B.proc t) i = entry (B.proc s) i := by
  obtain ⟨ps, rfl, ht, -⟩ := h.scan
  rw [ht, hB.proc_store, entry, entry, List.getD_append_right _ _ _ _ (Nat.le_refl _),
    Nat.sub_self, List.getD_eq_getElem?_getD, List.getElem?_drop, Nat.add_zero,
    ← List.getD_eq_getElem?_getD]

theorem ScannedTo.take_succ (h : i < (B.proc s).length) :
    (B.proc s).take (i + 1) = (B.proc s).take i ++ [entry (B.proc s) i] := by
  rw [List.take_succ_eq_append_getElem h, entry_eq_getElem h]

theorem ScannedTo.drop_eq (h : i < (B.proc s).length) :
    (B.proc s).drop i = entry (B.proc s) i :: (B.proc s).drop (i + 1) := by
  rw [List.drop_eq_getElem_cons h, entry_eq_getElem h]

/-- An entry whose time has not come is passed over. -/
theorem ScannedTo.skip (h : B.ScannedTo i s t) (hi : i < (B.proc s).length)
    (hready : (entry (B.proc s) i).ready ≠ B.now s) : B.ScannedTo (i + 1) s t := by
  obtain ⟨ps, hlen, ht, hscan⟩ := h.scan
  refine ⟨hi, ps ++ [entry (B.proc s) i], by simp [hlen], ?_, ?_⟩
  · rw [List.append_assoc, List.singleton_append, ← ScannedTo.drop_eq hi]
    exact ht
  · rw [ScannedTo.take_succ hi]
    exact forkScan_snoc hscan (if_neg hready)

/-- The others get a child. -/
theorem ScannedTo.fork (h : B.ScannedTo i s t) (hB : B.Lawful) (hi : i < (B.proc s).length)
    (hready : (entry (B.proc s) i).ready = B.now s) {p : Process} {log : Log}
    (hspawn : B.spawn (B.now t) i (entry (B.proc t) i) (B.log t) = .ok (p, log)) :
    B.ScannedTo (i + 1) s (B.store t ((B.proc t).set i p) log) := by
  rw [h.now_eq hB, h.entry_eq hB] at hspawn
  obtain ⟨ps, hlen, ht, hscan⟩ := h.scan
  have hproc : B.proc t = ps ++ (B.proc s).drop i := by rw [ht, hB.proc_store]
  have hset : (B.proc t).set i p = ps ++ [p] ++ (B.proc s).drop (i + 1) := by
    rw [hproc, ScannedTo.drop_eq hi, List.set_append_right _ _ (by omega), hlen, Nat.sub_self,
      List.set_cons_zero, List.append_assoc, List.singleton_append]
  refine ⟨hi, ps ++ [p], by simp [hlen], ?_, ?_⟩
  · rw [hB.log_store, ← hset]
    exact (congrArg (fun u => B.store u ((B.proc t).set i p) log) ht).trans
      (hB.store_store _ _ _ _ _)
  · rw [ScannedTo.take_succ hi, hB.log_store]
    refine forkScan_snoc hscan ?_
    rw [if_pos hready, List.length_take, Nat.zero_add, Nat.min_eq_left hi.le]
    exact hspawn

/-- At the end of the table the scan is over. -/
theorem ScannedTo.scan_eq (h : B.ScannedTo (B.proc s).length s t) : B.scan s = .next t := by
  obtain ⟨ps, -, ht, hscan⟩ := h.scan
  rw [List.take_length] at hscan
  rw [List.drop_length, List.append_nil] at ht
  rw [Body.scan, hscan]
  exact congrArg Outcome.next ht.symm

/-! ## The pieces of a run -/

/-- What a body does to the children. -/
structure Calls (B : Body σ) (os : Os) : Prop where
  lawful : B.Lawful
  head : ∀ s, B.proc (B.head s).state = B.proc s ∧ B.now (B.head s).state = B.now s ∧
    (B.log (B.head s).state).forked = (B.log s).forked ∧
    forkedOf (B.log (B.head s).state).marks = forkedOf (B.log s).marks ∧
    (B.log (B.head s).state).reaped.map Prod.snd =
      (B.log s).reaped.map Prod.snd ++ (B.waits s).toList
  spawn : ∀ now i p log, ∃ p' log', B.spawn now i p log = .ok (p', log') ∧
    log'.forked = log.forked ++ [os.fork log] ∧
    forkedOf log'.marks = forkedOf log.marks ++ [i] ∧ log'.reaped = log.reaped
  tail : ∀ s, (B.log s).SameChildren (B.log (B.tail s).state)

/-- A body on the table `W`, from `o` on: what its iterations make of the
    children. -/
structure Runs (B : Body σ) (os : Os) (W : List Process) (o : Outcome σ) : Prop where
  calls : B.Calls os
  start : ∃ s, o = .next s ∧ (B.log s).forked = [] ∧ forkedOf (B.log s).marks = [] ∧
    (B.log s).reaped = []
  length_eq : ∀ k s, Outcome.run B.step o k = .next s → (B.proc s).length = W.length
  /-- an entry is forked as it was read -/
  copy : ∀ k s i, Outcome.run B.step o k = .next s → i < W.length →
    (entry (B.proc s) i).ready = B.now s → (entry (B.proc s) i).child = (entry W i).child
  ready_eq : ∀ k s i, Outcome.run B.step o k = .next s → i < W.length →
    (entry (B.proc s) i).ready = (entry W i).ready
  /-- the parent waits for its own children, and once -/
  waited : ∀ k s pid, Outcome.run B.step o k = .next s → B.waits s = some pid →
    pid ∈ (B.log s).forked ∧ pid ∉ (B.log s).reaped.map Prod.snd
  /-- the loop is left before the scan -/
  leaves : ∀ s s', B.step s = .done s' → B.head s = .done s'

/-- Where the parent is in the run of the loop from `o` on. -/
def At (B : Body σ) (o : Outcome σ) : Point σ → Prop
  | .top s => ∃ k, Outcome.run B.step o k = .next s
  | .scan i t => ∃ k s s₁, Outcome.run B.step o k = .next s ∧ B.head s = .next s₁ ∧
      B.ScannedTo i s₁ t
  | .ended r => ∃ k, Outcome.run B.step o k = r

/-- The log of the parent. -/
def logAt (B : Body σ) : Point σ → Log
  | .top s => B.log s
  | .scan _ s => B.log s
  | .ended r => B.log r.state

@[simp] theorem logAt_toScan (B : Body σ) (r : Outcome σ) : B.logAt r.toScan = B.log r.state := by
  cases r <;> rfl

@[simp] theorem logAt_launch (B : Body σ) (r : Outcome σ) : B.logAt r.launch = B.log r.state := by
  cases r <;> rfl

/-- What a piece of the loop body can do. -/
inductive Advanced (B : Body σ) (os : Os) : Point σ → Action Int Child → Point σ → Prop
  | head (s : σ) : Advanced B os (.top s)
      (match B.waits s with | some pid => .wait pid | none => .quiet) (B.head s).toScan
  | fork {i : ℕ} {s : σ} {p : Process} {log : Log} (hi : i < (B.proc s).length)
      (hready : (entry (B.proc s) i).ready = B.now s)
      (hspawn : B.spawn (B.now s) i (entry (B.proc s) i) (B.log s) = .ok (p, log)) :
      Advanced B os (.scan i s) (.fork (os.fork (B.log s)) (entry (B.proc s) i).child)
        (.scan (i + 1) (B.store s ((B.proc s).set i p) log))
  | skip {i : ℕ} {s : σ} (hi : i < (B.proc s).length)
      (hready : (entry (B.proc s) i).ready ≠ B.now s) :
      Advanced B os (.scan i s) .quiet (.scan (i + 1) s)
  | tail {i : ℕ} {s : σ} (hi : ¬ i < (B.proc s).length) :
      Advanced B os (.scan i s) .quiet (B.tail s).launch

variable {os : Os} {o : Outcome σ} {pt : Point σ}

theorem run_of_tail {k : ℕ} {s₁ : σ} (hs : Outcome.run B.step o k = .next s)
    (hhead : B.head s = .next s₁) (h : B.ScannedTo (B.proc s₁).length s₁ t) :
    Outcome.run B.step o (k + 1) = B.tail t := by
  rw [Outcome.run_succ_of_next hs, Body.step, hhead, Outcome.bind_next, h.scan_eq,
    Outcome.bind_next]

theorem run_of_head {k : ℕ} (hs : Outcome.run B.step o k = .next s)
    (hhead : ∀ s₁, B.head s ≠ .next s₁) : Outcome.run B.step o (k + 1) = B.head s := by
  rw [Outcome.run_succ_of_next hs, Body.step]
  cases h : B.head s with
  | next s₁ => exact absurd h (hhead s₁)
  | _ => rfl

theorem Calls.logged_head (hc : B.Calls os) (h : Logged W acts (B.log s)) :
    Logged W (acts ++ [match B.waits s with | some pid => .wait pid | none => .quiet])
      (B.log (B.head s).state) := by
  obtain ⟨-, -, hforked, hentries, hreaped⟩ := hc.head s
  cases hw : B.waits s with
  | none =>
      refine ⟨by simp [hforked, h.pids], by simp [hentries, h.copies], ?_⟩
      simp [hreaped, hw, h.waits]
  | some pid =>
      refine ⟨by simp [hforked, h.pids], by simp [hentries, h.copies], ?_⟩
      simp [hreaped, hw, h.waits]

theorem advanced {b c : Point σ} {x : Action Int Child} (hc : B.Calls os) (hos : os.Healthy)
    (hx : B.advance os b = some (x, c)) : Advanced B os b x c := by
  cases b with
  | ended r => cases hx
  | top s =>
      obtain ⟨rfl, rfl⟩ := Prod.mk.inj (Option.some.inj hx)
      exact .head s
  | scan i s =>
      rw [advance] at hx
      split at hx
      · next hi =>
        split at hx
        · next hready =>
          obtain ⟨p, log, hspawn, -⟩ := hc.spawn (B.now s) i (entry (B.proc s) i) (B.log s)
          rw [if_pos (hos.fork_pos _), hspawn, Option.some.injEq, Prod.mk.injEq] at hx
          obtain ⟨rfl, rfl⟩ := hx
          exact .fork hi hready hspawn
        · next hready =>
          obtain ⟨rfl, rfl⟩ := Prod.mk.inj (Option.some.inj hx)
          exact .skip hi hready
      · next hi =>
        obtain ⟨rfl, rfl⟩ := Prod.mk.inj (Option.some.inj hx)
        exact .tail hi

/-- The entry whose turn it is to be forked is still as it was read, and this is
    its ready time. -/
theorem Runs.child_eq (hR : B.Runs os W o) (hat : B.At o (.scan i t))
    (hi : i < (B.proc t).length) (hready : (entry (B.proc t) i).ready = B.now t) :
    (entry (B.proc t) i).child = (entry W i).child ∧ (entry W i).ready = B.now t := by
  have hc := hR.calls
  obtain ⟨k, s, s₁, hs, hhead, hscan⟩ := hat
  obtain ⟨hproc, hnow, -⟩ := hc.head s
  rw [hhead, Outcome.state_next] at hproc hnow
  rw [hscan.length_eq hc.lawful, hproc, hR.length_eq k s hs] at hi
  rw [hscan.entry_eq hc.lawful, hproc] at hready ⊢
  refine ⟨hR.copy k s i hs hi ?_, (hR.ready_eq k s i hs hi).symm.trans hready⟩
  rwa [hscan.now_eq hc.lawful, hnow] at hready

/-- The parent passes through the states of its loop, and its log names its
    children. -/
theorem Runs.path_at (hR : B.Runs os W o) (hos : os.Healthy)
    (h : Path (B.system os) o.launch acts pt) : B.At o pt ∧ Logged W acts (B.logAt pt) := by
  have hc := hR.calls
  induction h with
  | nil =>
      obtain ⟨s, rfl, hforked, hentries, hreaped⟩ := hR.start
      refine ⟨⟨0, rfl⟩, ?_, ?_, ?_⟩ <;> simp [Outcome.launch, logAt, hforked, hentries, hreaped]
  | snoc h hx ih =>
      obtain ⟨hat, hlog⟩ := ih
      cases advanced hc hos hx with
      | head s =>
          obtain ⟨k, hs⟩ := hat
          refine ⟨?_, by rw [logAt_toScan]; exact hc.logged_head hlog⟩
          cases hnext : B.head s with
          | next s₁ => exact ⟨k, s, s₁, hs, hnext, ScannedTo.zero hc.lawful s₁⟩
          | _ =>
              have hrun := run_of_head hs fun s₁ h => by
                rw [hnext] at h
                cases h
              exact ⟨k + 1, hrun.trans hnext⟩
      | @fork i t p log hi hready hspawn =>
          obtain ⟨k, s, s₁, hs, hhead, hscan⟩ := hat
          have hlen := hscan.length_eq hc.lawful
          have hentry := hscan.entry_eq hc.lawful
          have hnow := hscan.now_eq hc.lawful
          obtain ⟨p', log', hspawn', hforked, hentries, hreaped⟩ :=
            hc.spawn (B.now t) i (entry (B.proc t) i) (B.log t)
          rw [hspawn, Except.ok.injEq, Prod.mk.injEq] at hspawn'
          obtain ⟨rfl, rfl⟩ := hspawn'
          refine ⟨⟨k, s, s₁, hs, hhead, hscan.fork hc.lawful (by omega) ?_ hspawn⟩, ?_, ?_, ?_⟩
          · rw [← hentry, ← hnow]
            exact hready
          · simp [logAt, hc.lawful.log_store, hforked, hlog.pids]
          · have hcopy := hR.child_eq ⟨k, s, s₁, hs, hhead, hscan⟩ hi hready
            simp [logAt, hc.lawful.log_store, hentries, hlog.copies, hcopy]
          · simp [logAt, hc.lawful.log_store, hreaped, hlog.waits]
      | @skip i t hi hready =>
          obtain ⟨k, s, s₁, hs, hhead, hscan⟩ := hat
          have hlen := hscan.length_eq hc.lawful
          rw [hscan.entry_eq hc.lawful, hscan.now_eq hc.lawful] at hready
          exact ⟨⟨k, s, s₁, hs, hhead, hscan.skip (by omega) hready⟩,
            hlog.quiet (Log.SameChildren.refl _)⟩
      | @tail i t hi =>
          obtain ⟨k, s, s₁, hs, hhead, hscan⟩ := hat
          have hlen := hscan.length_eq hc.lawful
          obtain rfl : i = (B.proc s₁).length := Nat.le_antisymm hscan.le (by omega)
          have hrun := run_of_tail hs hhead hscan
          refine ⟨?_, by rw [logAt_launch]; exact hlog.quiet (hc.tail t)⟩
          cases hnext : B.tail t with
          | next s' => exact ⟨k + 1, hrun.trans hnext⟩
          | _ => exact ⟨k + 1, hrun.trans hnext⟩

/-- The parent forks fresh pids and waits for each child at most once. -/
theorem Runs.sane (hR : B.Runs os W o) (hos : os.Healthy) :
    ForkJoin.Sane (B.system os) o.launch where
  fork {acts b p c b'} h hx := by
    obtain ⟨-, hlog⟩ := hR.path_at hos h
    rw [hlog.pids]
    generalize hy : Action.fork p c = y at hx
    cases advanced hR.calls hos hx with
    | head s => cases hw : B.waits s <;> simp [hw] at hy
    | fork _ _ _ =>
        rw [(Action.fork.inj hy).1]
        exact hos.fork_fresh _
    | skip _ _ => cases hy
    | tail _ => cases hy
  wait {acts b p b'} h hx := by
    obtain ⟨hat, hlog⟩ := hR.path_at hos h
    rw [hlog.pids, hlog.waits]
    generalize hy : Action.wait p = y at hx
    cases advanced hR.calls hos hx with
    | head s =>
        obtain ⟨k, hs⟩ := hat
        cases hw : B.waits s with
        | none => simp [hw] at hy
        | some pid =>
            simp only [hw, Action.wait.injEq] at hy
            subst hy
            exact hR.waited k s p hs hw
    | fork _ _ _ => cases hy
    | skip _ _ => cases hy
    | tail _ => cases hy

/-! ## The parent alone comes through its loop -/

theorem system_top (os : Os) (o' : Outcome σ) :
    B.head s = o' → (B.system os).parent (.top s) = some
      (match B.waits s with
        | some pid => .wait pid
        | none => .quiet,
      match o' with
        | .next s => .scan 0 s
        | o => .ended o) := by
  rintro rfl
  rfl

theorem Runs.path_scan (hR : B.Runs os W o) (hos : os.Healthy) {k : ℕ} {s₁ : σ}
    (hs : Outcome.run B.step o k = .next s) (hhead : B.head s = .next s₁)
    (h : Path (B.system os) o.launch acts (.top s)) (hi : i ≤ W.length) :
    ∃ acts' t, Path (B.system os) o.launch acts' (.scan i t) ∧ B.ScannedTo i s₁ t ∧
      acts'.length = acts.length + 1 + i := by
  have hc := hR.calls
  have hlen : (B.proc s₁).length = W.length := by
    have hproc := (hc.head s).1
    rw [hhead, Outcome.state_next] at hproc
    rw [hproc, hR.length_eq k s hs]
  induction i with
  | zero =>
      refine ⟨_, s₁, h.snoc (x := match B.waits s with | some pid => .wait pid | none => .quiet) ?_,
        ScannedTo.zero hc.lawful s₁, by rw [List.length_append, List.length_singleton]⟩
      exact B.system_top os _ hhead
  | succ i ih =>
      obtain ⟨acts', t, hpath, hscan, hl⟩ := ih (by omega)
      have hentry := hscan.entry_eq hc.lawful
      have hnow := hscan.now_eq hc.lawful
      have hi' : i < (B.proc t).length := by
        rw [hscan.length_eq hc.lawful]
        omega
      by_cases hready : (entry (B.proc t) i).ready = B.now t
      · obtain ⟨p, log, hspawn, -⟩ := hc.spawn (B.now t) i (entry (B.proc t) i) (B.log t)
        refine ⟨acts' ++ [.fork (os.fork (B.log t)) (entry (B.proc t) i).child], _, hpath.snoc ?_,
          hscan.fork hc.lawful (by omega) (by rw [← hentry, ← hnow]; exact hready) hspawn, ?_⟩
        · simp only [system, advance, if_pos hi', if_pos hready, if_pos (hos.fork_pos _), hspawn]
        · rw [List.length_append, List.length_singleton, hl, Nat.add_assoc]
      · refine ⟨acts' ++ [.quiet], t, hpath.snoc ?_, hscan.skip (by omega) ?_, ?_⟩
        · simp only [system, advance, if_pos hi', if_neg hready]
        · rw [← hentry, ← hnow]
          exact hready
        · rw [List.length_append, List.length_singleton, hl, Nat.add_assoc]

/-- A parent without `waitpid` calls. -/
theorem waits_eq_nil (hw : ∀ s, B.waits s = none) {a : Point σ}
    (h : Path (B.system os) a acts pt) : ForkJoin.waits acts = [] := by
  induction h with
  | nil => rfl
  | @snoc acts b x c h hx ih =>
      rw [ForkJoin.waits_append, ih, List.nil_append]
      replace hx : B.advance os b = some (x, c) := hx
      cases b with
      | top s =>
          simp only [advance, hw, Option.some.injEq, Prod.mk.injEq] at hx
          rw [← hx.1, ForkJoin.waits_quiet]
      | scan i s =>
          simp only [advance] at hx
          split at hx
          · split at hx
            · simp only [Option.some.injEq, Prod.mk.injEq] at hx
              rw [← hx.1]
              split <;> rfl
            · simp only [Option.some.injEq, Prod.mk.injEq] at hx
              rw [← hx.1, ForkJoin.waits_quiet]
          · simp only [Option.some.injEq, Prod.mk.injEq] at hx
            rw [← hx.1, ForkJoin.waits_quiet]
      | ended o => cases hx

/-- Every state at the top of an iteration is reached, `n + 2` steps for each
    iteration before it. -/
theorem Runs.path_top (hR : B.Runs os W o) (hos : os.Healthy) :
    ∀ k s, Outcome.run B.step o k = .next s → ∃ acts,
      Path (B.system os) o.launch acts (.top s) ∧ acts.length = k * (W.length + 2) := by
  have hc := hR.calls
  intro k
  induction k with
  | zero =>
      intro s hs
      rw [Outcome.run_zero] at hs
      rw [hs]
      exact ⟨[], Path.nil, by simp⟩
  | succ k ih =>
      intro s' hs'
      obtain ⟨s, hs, hstep⟩ := Outcome.run_succ_eq_next hs'
      obtain ⟨s₂, hmid, htail⟩ := Outcome.bind_eq_next.mp hstep
      obtain ⟨s₁, hhead, hscan₁⟩ := Outcome.bind_eq_next.mp hmid
      obtain ⟨acts, hpath, hl⟩ := ih s hs
      obtain ⟨acts', t, hpath', hscan, hl'⟩ :=
        hR.path_scan hos hs hhead hpath (Nat.le_refl W.length)
      have hlen : (B.proc s₁).length = W.length := by
        have hproc := (hc.head s).1
        rw [hhead, Outcome.state_next] at hproc
        rw [hproc, hR.length_eq k s hs]
      rw [← hlen] at hscan
      obtain rfl : s₂ = t := by
        rw [hscan.scan_eq, Outcome.next.injEq] at hscan₁
        exact hscan₁.symm
      refine ⟨acts' ++ [.quiet], hpath'.snoc ?_, ?_⟩
      · have hnot : ¬ W.length < (B.proc s₂).length := by
          rw [hscan.length_eq hc.lawful]
          omega
        simp only [system, advance, if_neg hnot, htail]
      · rw [List.length_append, List.length_singleton, hl', hl, Nat.succ_mul]
        omega

/-- The parent alone leaves the loop. -/
theorem Runs.path_done (hR : B.Runs os W o) (hos : os.Healthy) {k : ℕ} {s' : σ}
    (hs : Outcome.run B.step o k = .next s) (hdone : B.step s = .done s') : ∃ acts,
      Path (B.system os) o.launch acts (.ended (.done s')) ∧
        acts.length = k * (W.length + 2) + 1 := by
  obtain ⟨acts, hpath, hl⟩ := hR.path_top hos k s hs
  refine ⟨_, hpath.snoc (x := match B.waits s with | some pid => .wait pid | none => .quiet) ?_,
    by rw [List.length_append, List.length_singleton, hl]⟩
  exact B.system_top os _ (hR.leaves s s' hdone)

end Body

/-! ## Children that count -/

/-- The units a child has still to do, and its exit. -/
def Child.left (c : Child) : ℕ := if c.exited then 0 else (c.exec - c.i).toNat + 1

/-- A child counts from 0 up to `exec` and exits there. -/
structure Child.Counts (c : Child) : Prop where
  nonneg : 0 ≤ c.i
  le : c.i ≤ c.exec
  exited : c.exited = true → c.i = c.exec

theorem Child.step_eq_none {c : Child} : c.step = none ↔ c.exited = true := by
  rw [step]
  split
  · next h => exact iff_of_true rfl h
  · next h =>
    split <;> exact iff_of_false (Option.some_ne_none _) h

/-- One step counts up or exits. -/
theorem Child.step_cases {c c' : Child} (h : c.step = some c') : c.exited = false ∧
    (c.i < c.exec ∧ c' = { c with i := c.i + 1 } ∨
      ¬ c.i < c.exec ∧ c' = { c with exited := true }) := by
  rw [step] at h
  split at h
  · cases h
  · next hrun =>
    refine ⟨by simpa using hrun, ?_⟩
    split at h
    · next hlt => exact Or.inl ⟨hlt, (Option.some.inj h).symm⟩
    · next hlt => exact Or.inr ⟨hlt, (Option.some.inj h).symm⟩

theorem Child.Counts.step {c c' : Child} (hc : c.Counts) (h : c.step = some c') : c'.Counts := by
  have hle := hc.le
  have hnonneg := hc.nonneg
  obtain ⟨hrun, ⟨hlt, rfl⟩ | ⟨hlt, rfl⟩⟩ := Child.step_cases h
  · exact ⟨by simp only; omega, by simp only; omega, fun he => by simp [hrun] at he⟩
  · exact ⟨hnonneg, hle, fun _ => by simp only; omega⟩

theorem Child.measured (B : Body σ) (os : Os) :
    ForkJoin.Measured (B.system os) (fun c => (c.name, c.exec)) Child.left where
  key_eq h := by
    obtain ⟨-, ⟨-, rfl⟩ | ⟨-, rfl⟩⟩ := Child.step_cases h <;> rfl
  left_eq h := by
    obtain ⟨hrun, ⟨hlt, rfl⟩ | ⟨hlt, rfl⟩⟩ := Child.step_cases h
    · simp only [left, hrun, Bool.false_eq_true, if_false]
      omega
    · simp only [left, hrun, Bool.false_eq_true, if_false, if_true]
      omega
  exited h := by rw [left, if_pos (Child.step_eq_none.mp h)]

/-- Every child of a run counts to the `exec` of its entry. -/
theorem Body.Runs.counts {σ : Type} {B : Body σ} {os : Os} {o : Outcome σ} {n : ℕ}
    {w : ForkJoin.World (Point σ) Child Int} (hR : B.Runs os W o) (hos : os.Healthy)
    (hW : WellFormed W) (h : ForkJoin.Run (B.system os) o.launch n w) :
    ∀ c ∈ w.children ++ w.reaped, c.2.Counts := by
  refine ForkJoin.Run.children_invariant (fun {acts b p c b'} hp hx => ?_)
    (fun {c c'} hc hs => hc.step hs) (hR.sane hos) (Child.measured _ os) h
  obtain ⟨-, hlog⟩ := hR.path_at hos (hp.snoc hx)
  -- the copy of a table entry
  have hmem : c ∈ (forkedOf (B.logAt b').marks).map fun i => (entry W i).child := by
    rw [← hlog.copies, ForkJoin.forks_append, ForkJoin.forks_fork]
    simp
  obtain ⟨i, -, rfl⟩ := List.mem_map.mp hmem
  refine ⟨Int.le_refl 0, ?_, fun he => by simp [Process.child] at he⟩
  show 0 ≤ (entry W i).exec
  by_cases hi : i < W.length
  · have := hW.exec_pos _ (entry_mem hi)
    omega
  · rw [entry, List.getD_eq_default _ _ (Nat.le_of_not_lt hi)]
    exact Int.le_refl 0

/-- The children a parent has not waited for are the living ones of its log. -/
theorem Body.Runs.mem_children {σ : Type} {B : Body σ} {os : Os} {o : Outcome σ} {n : ℕ}
    {w : ForkJoin.World (Point σ) Child Int} (hR : B.Runs os W o) (hos : os.Healthy)
    (h : ForkJoin.Run (B.system os) o.launch n w) {pid : Int} :
    pid ∈ w.children.map Prod.fst ↔ pid ∈ (B.logAt w.parent).forked ∧
      pid ∉ (B.logAt w.parent).reaped.map Prod.snd := by
  obtain ⟨acts, ht⟩ := h.tally (hR.sane hos) (Child.measured _ os)
  obtain ⟨-, hlog⟩ := hR.path_at hos ht.path
  rw [ht.mem_children (hR.sane hos), hlog.pids, hlog.waits]

/-! ## The four loops in pieces -/

theorem Outcome.bind_assoc {σ : Type} (o : Outcome σ) (f g : σ → Outcome σ) :
    (o.bind f).bind g = o.bind fun s => (f s).bind g := by
  cases o <;> rfl

/-- An entry that has had no unit is forked as it was read. -/
theorem Tracks.child_eq {σ : Schedule ℕ} {k i : ℕ} {proc : List Process} (h : Tracks W σ k proc)
    (hi : i < W.length) (hz : σ.served k i = 0) : (entry proc i).child = (entry W i).child := by
  have hexec := h.exec_eq i hi
  rw [hz] at hexec
  rw [Process.child, Process.child, h.name_eq i hi, hexec, Nat.cast_zero, Int.sub_zero]

namespace Loop

variable {d : Discipline} {os : Os} {law : ChoiceLaw} {front : SchedPolicy}

theorem body_step (d : Discipline) (os : Os) (s : State) : (d.body os).step s = d.step os s := by
  have hscan : ∀ s, (d.body os).scan s = d.forkReady os s := fun s => by
    rw [Body.scan, Discipline.forkReady]
    rfl
  rw [Body.step, Discipline.step, Discipline.arrive, funext hscan]
  exact (Outcome.bind_assoc _ _ _).symm

theorem body_lawful (d : Discipline) (os : Os) : (d.body os).Lawful where
  proc_store _ _ _ := rfl
  now_store _ _ _ := rfl
  log_store _ _ _ := rfl
  store_store _ _ _ _ _ := rfl
  store_self _ := rfl

/-- The finish test waits for the running process when its counter is 0. -/
theorem waits_eq_some {s : State} {pid : Int} (h : (d.body os).waits s = some pid) :
    ∃ r, s.running = some r ∧ (entry s.proc r).exec = 0 ∧ pid = (entry s.proc r).pid := by
  simp only [Discipline.body] at h
  cases hr : s.running with
  | none =>
      rw [hr] at h
      cases h
  | some r =>
      simp only [hr] at h
      split at h
      · next hexec => exact ⟨r, rfl, hexec, (Option.some.inj h).symm⟩
      · cases h

theorem contextSwitch_same (hd : d.Calls os front) (hm : ∀ s i, (d.wakeup os s i).marks = [])
    (s : State) : s.log.SameChildren (d.contextSwitch os s).state.log := by
  rw [Discipline.contextSwitch]
  cases d.next s with
  | none => exact Log.SameChildren.refl _
  | some o =>
      cases o with
      | none => exact Log.SameChildren.refl _
      | some i =>
          obtain ⟨hforked, hreaped⟩ := hd.quiet s i
          by_cases hr : s.running = some i
          · simp only [hr, if_true]
            exact ⟨by simp, by simp [forkedOf], by simp⟩
          · simp only [hr, if_false]
            exact ⟨by simp [hforked], by simp [forkedOf, hm], by simp [hreaped]⟩

theorem unit_same (s : State) : s.log.SameChildren s.unit.log := by
  rw [State.unit]
  cases s.running with
  | none => exact Log.SameChildren.refl _
  | some r => exact ⟨by simp, by simp [forkedOf], by simp⟩

theorem body_calls (hd : d.Obeys os W law) (hc : d.Calls os front) : (d.body os).Calls os where
  lawful := body_lawful d os
  head s := by
    show (d.finishTest s).state.proc = s.proc ∧ (d.finishTest s).state.now = s.now ∧ _
    rcases finishTest_cases (d := d) s with ⟨htest, hkeep⟩ | ⟨r, hr, hexec, htest⟩
    · have hw : (d.body os).waits s = none := by
        simp only [Discipline.body]
        cases hr : s.running with
        | none => rfl
        | some r => simp only [hkeep r hr, if_false]
      rw [hw, show (d.body os).head s = d.finishTest s from rfl, htest]
      exact ⟨rfl, rfl, rfl, rfl, (List.append_nil _).symm⟩
    · have hw : (d.body os).waits s = some (entry s.proc r).pid := by
        simp only [Discipline.body, hr, hexec, if_true]
      have hstate : (d.finishTest s).state = d.reap s r := by
        rw [htest]
        split <;> rfl
      rw [hw, show (d.body os).head s = d.finishTest s from rfl, hstate]
      refine ⟨rfl, rfl, ?_⟩
      simp [Discipline.body, forkedOf]
  spawn now i p log := by
    obtain ⟨pid, new, hspawn, -, -, hforked, hmarks⟩ := hd.spawns now i p log
    obtain ⟨hpid, -, hreaped, -⟩ := hc.spawn now i p log _ _ hspawn
    refine ⟨_, _, hspawn, ?_, ?_, hreaped⟩
    · rw [Log.forked_append, hforked, ← hpid]
    · rw [Log.marks_append, forkedOf_append, hmarks]
      rfl
  tail s := by
    show s.log.SameChildren ((d.contextSwitch os s).bind fun s => .next s.unit).state.log
    have hsame := contextSwitch_same hc hd.wakeup s
    cases hswitch : d.contextSwitch os s with
    | next s' =>
        rw [hswitch] at hsame
        exact hsame.trans (unit_same s')
    | _ =>
        rw [hswitch] at hsame
        exact hsame

/-- The loop of a discipline on a healthy system, from its initial state on. -/
theorem body_runs (hd : d.Obeys os W law) (hc : d.Calls os front) (hW : WellFormed W)
    {log : Log} (hlog : Bare log) {o : Outcome State} (ho : o = .next (State.initial W log)) :
    (d.body os).Runs os W o := by
  have hstep : (d.body os).step = d.step os := funext (body_step d os)
  refine ⟨body_calls hd hc, ⟨_, ho, hlog.forked, by simp [Discipline.body, State.initial,
    hlog.marks], hlog.reaped⟩, fun k s hs => ?_, fun k s i hs hi hready => ?_,
    fun k s i hs hi => ?_, fun k s pid hs hw => ?_, fun s s' hdone => ?_⟩
  · rw [hstep] at hs
    exact (inv_of_next hd hW hlog.marks ho hs).1.tracks.length_eq
  · rw [hstep] at hs
    obtain ⟨hI, hB⟩ := inv_of_next hd hW hlog.marks ho hs
    replace hready : (entry s.proc i).ready = s.now := hready
    refine hI.tracks.child_eq hi (hB.served_eq_zero ?_)
    rw [hI.now, hI.tracks.ready_iff hW hi] at hready
    exact hready.ge
  · rw [hstep] at hs
    exact (inv_of_next hd hW hlog.marks ho hs).1.tracks.ready_eq i hi
  · rw [hstep] at hs
    obtain ⟨hI, hB⟩ := inv_of_next hd hW hlog.marks ho hs
    have hchild := children_of_next hd hc hW hlog ho k s hs
    -- the parent waits for the process of the previous unit, which has ended by it
    obtain ⟨r, hr, hexec, rfl⟩ := waits_eq_some hw
    have hend := hI.ended_some hB hW hr hexec
    have harrived := hB.prev_released (hI.running.symm.trans hr)
    refine ⟨(hchild.mem_iff _).mpr ⟨r, harrived, rfl⟩, fun hmem => ?_⟩
    replace hmem : (entry s.proc r).pid ∈ s.log.reaped.map Prod.snd := hmem
    rw [hchild.reaped, List.map_map] at hmem
    obtain ⟨⟨c, j⟩, he, hpid⟩ := List.mem_map.mp hmem
    have hj := endings_arrived hB (c, j) (mem_endings.mpr
      ⟨Nat.lt_succ_of_lt (mem_endings.mp he).1, (mem_endings.mp he).2⟩)
    obtain rfl := hchild.inj j r hj harrived hpid
    obtain ⟨hlt, hend'⟩ := mem_endings.mp he
    obtain ⟨u, rfl, hrun⟩ := Jobs.run_of_ended hend
    have hstop := (Jobs.ended_eq_some.mp hend').2
    have hmono := Schedule.served_le_served (σ := followed d os o) j (Nat.le_of_lt_succ hlt)
    have := (hB.legal u (Nat.lt_succ_self u) j hrun).unfinished
    omega
  · rw [body_step] at hdone
    exact step_eq_done.mp hdone

end Loop

namespace Psjf

variable {os : Os}

theorem body_step (os : Os) (s : State) : (body os).step s = step os s := by
  have hscan : ∀ s, (body os).scan s = forkReady os s := fun s => by
    rw [Body.scan, forkReady]
    rfl
  rw [Body.step, step, funext hscan]
  simp only [body]
  split <;> rfl

theorem body_lawful (os : Os) : (body os).Lawful where
  proc_store _ _ _ := rfl
  now_store _ _ _ := rfl
  log_store _ _ _ := rfl
  store_store _ _ _ _ _ := rfl
  store_self _ := rfl

theorem update_same (i : ℕ) (s : State) : s.log.SameChildren (update i s).log := by
  rw [update]
  split <;> exact ⟨by simp, by simp [forkedOf], by simp⟩

theorem dispatch_same (i : ℕ) (s : State) : s.log.SameChildren (dispatch i s).log := by
  obtain ⟨-, -, -, -, hforked, hreaped, hmarks⟩ := dispatch_spec i s
  refine ⟨hforked, ?_, hreaped⟩
  rw [hmarks, forkedOf_append, forkedOf_eq_nil (l := _ :: _), List.append_nil]
  intro c j hm
  split at hm <;> simp at hm

theorem body_calls (hos : os.Healthy) : (body os).Calls os where
  lawful := body_lawful os
  head s := by
    simp only [body]
    split <;> exact ⟨rfl, rfl, rfl, rfl, (List.append_nil _).symm⟩
  spawn now i p log := by
    refine ⟨_, _, spawn_eq hos now i p log, ?_, ?_, ?_⟩ <;> simp [forkedOf]
  tail s := by
    show s.log.SameChildren (select s).tick.log
    rw [State.tick_log, select]
    split
    · exact (dispatch_same _ s).trans (update_same _ _)
    · exact Log.SameChildren.refl _

theorem body_runs (hos : os.Healthy) (hW : WellFormed W) (hz : ZeroWaiting W) :
    (body os).Runs os W (start os W) := by
  have hstep : (body os).step = step os := funext (body_step os)
  refine ⟨body_calls hos, ?_, fun k s hs => ?_, fun k s i hs hi hready => ?_,
    fun k s i hs hi => ?_, fun k s pid hs hw => ?_, fun s s' hdone => ?_⟩
  · rw [start, procAssignCpu_ok hos hos.getpid_pos (Nat.zero_le 128)]
    exact ⟨_, rfl, by simp [body], by simp [body], by simp [body]⟩
  · rw [hstep] at hs
    exact (inv_of_next hos hW hz hs).1.tracks.length_eq
  · rw [hstep] at hs
    obtain ⟨hI, hB⟩ := inv_of_next hos hW hz hs
    replace hready : (entry s.proc i).ready = s.time := hready
    refine hI.tracks.child_eq hi (hB.served_eq_zero ?_)
    rw [hI.time, hI.tracks.ready_iff hW hi] at hready
    exact hready.ge
  · rw [hstep] at hs
    exact (inv_of_next hos hW hz hs).1.tracks.ready_eq i hi
  · cases hw
  · simp only [Body.step, body] at hdone ⊢
    split at hdone
    · next hfin => simpa [hfin] using hdone
    · next hfin =>
      rw [Outcome.bind_next] at hdone
      cases hscan : (body os).scan s with
      | next s₁ =>
          simp only [body] at hscan
          rw [hscan] at hdone
          cases hdone
      | done s₁ =>
          rw [Body.scan] at hscan
          split at hscan <;> cases hscan
      | exit s₁ =>
          simp only [body] at hscan
          rw [hscan] at hdone
          cases hdone
      | hang s₁ =>
          simp only [body] at hscan
          rw [hscan] at hdone
          cases hdone

end Psjf

namespace Policy

variable {P : Policy} {os : Os} {q : Qsort}

/-- The loop in pieces is the loop. -/
theorem run_eq (P : Policy) (os : Os) (q : Qsort) (W : List Process) (k : ℕ) :
    P.run os q W k = (Outcome.run (P.body os).step (P.start os q W) k).map P.snapshot := by
  cases P with
  | fifo => exact congrArg (fun f => (Outcome.run f _ k).map _) (funext (Loop.body_step _ os)).symm
  | sjf => exact congrArg (fun f => (Outcome.run f _ k).map _) (funext (Loop.body_step _ os)).symm
  | rr => exact congrArg (fun f => (Outcome.run f _ k).map _) (funext (Loop.body_step _ os)).symm
  | psjf => exact congrArg (fun f => (Outcome.run f _ k).map _) (funext (Psjf.body_step os)).symm

theorem runs (hos : os.Healthy) (hW : WellFormed W) (hz : P.Fresh W) :
    (P.body os).Runs os (P.table q W) (P.start os q W) := by
  have hT := P.table_wellFormed (q := q) hW
  cases P with
  | fifo =>
      obtain ⟨log, hlog, hstart⟩ := Fifo.start_ok hos q W
      exact Loop.body_runs (Fifo.obeys hos hT (table_sorted hW (by decide))) (Fifo.calls hos) hT
        hlog hstart
  | sjf =>
      obtain ⟨log, hlog, hstart⟩ := Sjf.start_ok hos q W
      exact Loop.body_runs (Sjf.obeys hos hT) (Sjf.calls hos) hT hlog hstart
  | rr =>
      obtain ⟨log, hlog, hstart⟩ := Rr.start_ok hos q W
      exact Loop.body_runs (Rr.obeys hos hT) (Rr.calls hos) hT hlog hstart
  | psjf => exact Psjf.body_runs hos hT (hz rfl)

end Policy
end ProcSched
