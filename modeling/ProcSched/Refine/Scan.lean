/-
  ProcSched.Refine.Scan

  What the loops over the table compute: the two selection scans of FIFO and
  SJF and `find_min_index` return a first entry with least key, `RR_next`
  returns the first entry or the cyclically next one, and the fork scan gives a
  fresh pid to exactly the entries whose ready time has come.
-/

import ProcSched.Lib.While
import ProcSched.Model.Fifo
import ProcSched.Model.Rr
import ProcSched.Model.Sjf
import ProcSched.Model.Psjf

namespace ProcSched

/-! ## Selection scans -/

/-- The scan shared by `next_proc` and SJF: the first index below `n` with least
    key among those not skipped. -/
theorem foldl_least {n : Nat} (skip : Nat → Prop) [DecidablePred skip] (key : Nat → Int)
    {ret : Option Nat}
    (h : (List.range n).foldl (fun ret i =>
      if skip i then ret
      else
        match ret with
        | none => some i
        | some r => if key i < key r then some i else some r) none = ret) :
    (ret = none → ∀ i < n, skip i) ∧
      ∀ r, ret = some r → r < n ∧ ¬ skip r ∧
        ∀ j < n, ¬ skip j → key r < key j ∨ key r = key j ∧ r ≤ j := by
  induction n generalizing ret with
  | zero =>
      subst h
      simp
  | succ n ih =>
      rw [List.range_succ, List.foldl_append, List.foldl_cons, List.foldl_nil] at h
      generalize hacc : (List.range n).foldl _ none = acc at h
      obtain ⟨hnone, hsome⟩ := ih hacc
      by_cases hs : skip n
      · rw [if_pos hs] at h
        subst h
        refine ⟨fun he i hi => ?_, fun r hr => ?_⟩
        · rcases Nat.lt_succ_iff_lt_or_eq.mp hi with hi | rfl
          · exact hnone he i hi
          · exact hs
        · obtain ⟨hrn, hrs, hleast⟩ := hsome r hr
          refine ⟨by omega, hrs, fun j hj hjs => ?_⟩
          rcases Nat.lt_succ_iff_lt_or_eq.mp hj with hj | rfl
          · exact hleast j hj hjs
          · exact absurd hs hjs
      · rw [if_neg hs] at h
        cases acc with
        | none =>
            simp only at h
            subst h
            refine ⟨fun he => by simp at he, fun r hr => ?_⟩
            obtain rfl := Option.some.inj hr
            refine ⟨by omega, hs, fun j hj hjs => ?_⟩
            rcases Nat.lt_succ_iff_lt_or_eq.mp hj with hj | rfl
            · exact absurd (hnone rfl j hj) hjs
            · exact Or.inr ⟨rfl, Nat.le_refl _⟩
        | some a =>
            obtain ⟨han, has, hleast⟩ := hsome a rfl
            simp only at h
            by_cases hlt : key n < key a
            · rw [if_pos hlt] at h
              subst h
              refine ⟨fun he => by simp at he, fun r hr => ?_⟩
              obtain rfl := Option.some.inj hr
              refine ⟨by omega, hs, fun j hj hjs => ?_⟩
              rcases Nat.lt_succ_iff_lt_or_eq.mp hj with hj | rfl
              · have := hleast j hj hjs
                omega
              · exact Or.inr ⟨rfl, Nat.le_refl _⟩
            · rw [if_neg hlt] at h
              subst h
              refine ⟨fun he => by simp at he, fun r hr => ?_⟩
              obtain rfl := Option.some.inj hr
              refine ⟨by omega, has, fun j hj hjs => ?_⟩
              rcases Nat.lt_succ_iff_lt_or_eq.mp hj with hj | rfl
              · exact hleast j hj hjs
              · omega

/-- A forked and unfinished entry, as FIFO, RR and SJF test it. -/
def Runnable (p : Process) : Prop := p.pid ≠ -1 ∧ p.exec ≠ 0

theorem not_skip_iff {p : Process} : ¬ (p.pid = -1 ∨ p.exec = 0) ↔ Runnable p := by
  rw [not_or]
  rfl

theorem Fifo.nextProcScan_spec (proc : List Process) :
    (Fifo.nextProcScan proc = none → ∀ i < proc.length, ¬ Runnable (entry proc i)) ∧
      ∀ r, Fifo.nextProcScan proc = some r → r < proc.length ∧ Runnable (entry proc r) ∧
        ∀ j < proc.length, Runnable (entry proc j) →
          (entry proc r).ready < (entry proc j).ready ∨
            (entry proc r).ready = (entry proc j).ready ∧ r ≤ j := by
  have h := foldl_least (n := proc.length) (fun i => (entry proc i).pid = -1 ∨ (entry proc i).exec = 0)
    (fun i => (entry proc i).ready) rfl
  simp only [not_skip_iff] at h
  refine ⟨fun hn i hi hr => ?_, h.2⟩
  exact not_skip_iff.mpr hr (h.1 hn i hi)

theorem Sjf.nextScan_spec (proc : List Process) :
    (Sjf.nextScan proc = none → ∀ i < proc.length, ¬ Runnable (entry proc i)) ∧
      ∀ r, Sjf.nextScan proc = some r → r < proc.length ∧ Runnable (entry proc r) ∧
        ∀ j < proc.length, Runnable (entry proc j) →
          (entry proc r).exec < (entry proc j).exec ∨
            (entry proc r).exec = (entry proc j).exec ∧ r ≤ j := by
  have h := foldl_least (n := proc.length) (fun i => (entry proc i).pid = -1 ∨ (entry proc i).exec = 0)
    (fun i => (entry proc i).exec) rfl
  simp only [not_skip_iff] at h
  refine ⟨fun hn i hi hr => ?_, h.2⟩
  exact not_skip_iff.mpr hr (h.1 hn i hi)

theorem Rr.firstReady_spec (proc : List Process)
    (hexec : ∀ i < proc.length, 0 ≤ (entry proc i).exec) :
    (Rr.firstReady proc = none → ∀ i < proc.length, ¬ Runnable (entry proc i)) ∧
      ∀ r, Rr.firstReady proc = some r → r < proc.length ∧ Runnable (entry proc r) ∧
        ∀ j < proc.length, Runnable (entry proc j) → r ≤ j := by
  have htest : ∀ i < proc.length, (decide ((entry proc i).pid ≠ -1 ∧ (entry proc i).exec > 0)) = true
      ↔ Runnable (entry proc i) := by
    intro i hi
    have := hexec i hi
    rw [decide_eq_true_iff, Runnable]
    omega
  constructor
  · intro hn i hi hr
    have := List.find?_eq_none.mp hn i (List.mem_range.mpr hi)
    exact this ((htest i hi).mpr hr)
  · intro r hr
    obtain ⟨hok, hmem, hfirst⟩ := List.find?_range_eq_some.mp hr
    have hrn := List.mem_range.mp hmem
    refine ⟨hrn, (htest r hrn).mp hok, fun j hj hjr => ?_⟩
    by_contra hlt
    have := hfirst j (by omega)
    rw [(htest j hj).mpr hjr] at this
    simp at this

/-- The test of the `while` of `RR_next`. -/
def Rr.Skipped (proc : List Process) (ret : Nat) : Prop :=
  (entry proc ret).pid = -1 ∨ (entry proc ret).exec = 0

/-- The `while` of `RR_next`, entered with the index `ret`, ends after `m` passes
    at index `i`. -/
def Rr.RotationStops (proc : List Process) (ret m i : Nat) : Prop :=
  While.Stops (Rr.Skipped proc) (fun ret => (ret + 1) % proc.length) ret m i

/-- The bounded loop ends where the unbounded one does, if the bound is not met
    before. -/
theorem Rr.rotate_eq_some {proc : List Process} {fuel ret i : Nat} :
    Rr.rotate proc fuel ret = some i ↔ ∃ m < fuel, RotationStops proc ret m i := by
  induction fuel generalizing ret with
  | zero => simp [Rr.rotate]
  | succ fuel ih =>
      rw [Rr.rotate]
      by_cases hskip : (entry proc ret).pid = -1 ∨ (entry proc ret).exec = 0
      · rw [if_pos hskip, ih]
        constructor
        · rintro ⟨m, hm, hs⟩
          exact ⟨m + 1, by omega, hs.succ hskip⟩
        · rintro ⟨m, hm, hs⟩
          rcases While.stops_cases.mp hs with ⟨-, -, hok⟩ | ⟨-, l, rfl, hl⟩
          · exact absurd hskip hok
          · exact ⟨l, by omega, hl⟩
      · rw [if_neg hskip, Option.some.injEq]
        constructor
        · rintro rfl
          exact ⟨0, Nat.succ_pos fuel, While.Stops.zero hskip⟩
        · rintro ⟨m, -, hs⟩
          have hhere : RotationStops proc ret 0 ret := While.Stops.zero hskip
          exact (hhere.unique hs).2

/-- From a runnable index `r` the rotation reaches the next runnable index
    above `r`, or else the first one. -/
theorem Rr.rotate_next {proc : List Process} {r : Nat} (hr : r < proc.length)
    (hrun : Runnable (entry proc r)) :
    ∃ i, Rr.rotate proc proc.length ((r + 1) % proc.length) = some i ∧
      i < proc.length ∧ Runnable (entry proc i) ∧
      ((r < i ∧ ∀ j < proc.length, Runnable (entry proc j) → r < j → i ≤ j) ∨
        (i ≤ r ∧ ∀ j < proc.length, Runnable (entry proc j) → j ≤ r ∧ i ≤ j)) := by
  have hskip : ¬ Rr.Skipped proc r := not_skip_iff.mpr hrun
  obtain ⟨m, i, hm, hi, hs⟩ := While.ring_stops hr hskip
  have hok : Runnable (entry proc i) := not_skip_iff.mp hs.ends
  refine ⟨i, Rr.rotate_eq_some.mpr ⟨m, by omega, hs⟩, hi, hok, ?_⟩
  have hresult := hs.result
  rw [While.iterate_ring_succ hr] at hresult
  have hfirst : ∀ l < m, ¬ Runnable (entry proc ((r + 1 + l) % proc.length)) := by
    intro l hl h
    have hskip := hs.goes_on l hl
    rw [While.iterate_ring_succ hr] at hskip
    exact not_skip_iff.mpr h hskip
  rcases Nat.lt_or_ge (r + 1 + m) proc.length with hin | hout
  · -- the hit is above `r`
    rw [Nat.mod_eq_of_lt hin] at hresult
    refine Or.inl ⟨by omega, fun j hj hjr hrj => ?_⟩
    by_contra hlt'
    apply hfirst (j - (r + 1)) (by omega)
    rw [show r + 1 + (j - (r + 1)) = j by omega, Nat.mod_eq_of_lt hj]
    exact hjr
  · -- the scan wrapped around
    have hwrap : (r + 1 + m) % proc.length = r + 1 + m - proc.length := by
      rw [Nat.mod_eq_sub_mod hout, Nat.mod_eq_of_lt (by omega)]
    rw [hwrap] at hresult
    refine Or.inr ⟨by omega, fun j hj hjr => ⟨?_, ?_⟩⟩
    · by_contra hlt'
      apply hfirst (j - (r + 1)) (by omega)
      rw [show r + 1 + (j - (r + 1)) = j by omega, Nat.mod_eq_of_lt hj]
      exact hjr
    · by_contra hlt'
      apply hfirst (j + proc.length - (r + 1)) (by omega)
      rw [show r + 1 + (j + proc.length - (r + 1)) = j + proc.length by omega,
        Nat.add_mod_right, Nat.mod_eq_of_lt hj]
      exact hjr

/-- `index` and `min` of `find_min_index` after `n` entries: still at their
    initial values, or at the first waiting entry with least `exec`. -/
theorem Psjf.foldl_min {proc : List Process} {n : Nat} {acc : Nat × Int}
    (h : (List.range n).foldl (fun (acc : Nat × Int) i =>
      if (entry proc i).exec < acc.2 ∧ (entry proc i).waiting = 1 then (i, (entry proc i).exec)
      else acc) (0, intMax) = acc) :
    (acc = (0, intMax) ∧ ∀ i < n, (entry proc i).waiting = 1 → intMax ≤ (entry proc i).exec) ∨
      (acc.1 < n ∧ (entry proc acc.1).waiting = 1 ∧ (entry proc acc.1).exec = acc.2 ∧
        acc.2 < intMax ∧ ∀ j < n, (entry proc j).waiting = 1 →
          acc.2 < (entry proc j).exec ∨ acc.2 = (entry proc j).exec ∧ acc.1 ≤ j) := by
  induction n generalizing acc with
  | zero =>
      subst h
      exact Or.inl ⟨rfl, fun i hi => absurd hi (Nat.not_lt_zero i)⟩
  | succ n ih =>
      rw [List.range_succ, List.foldl_append, List.foldl_cons, List.foldl_nil] at h
      generalize hacc : (List.range n).foldl _ (0, intMax) = a at h
      specialize ih hacc
      by_cases htake : (entry proc n).exec < a.2 ∧ (entry proc n).waiting = 1
      · rw [if_pos htake] at h
        subst h
        obtain ⟨hlt, hw⟩ := htake
        refine Or.inr ⟨Nat.lt_succ_self n, hw, rfl, ?_, fun j hj hjw => ?_⟩
        · rcases ih with ⟨rfl, -⟩ | ⟨-, -, -, hmax, -⟩ <;> omega
        · rcases Nat.lt_succ_iff_lt_or_eq.mp hj with hj | rfl
          · rcases ih with ⟨rfl, hall⟩ | ⟨-, -, -, -, hleast⟩
            · have := hall j hj hjw
              simp only at hlt
              omega
            · have := hleast j hj hjw
              omega
          · exact Or.inr ⟨rfl, Nat.le_refl _⟩
      · rw [if_neg htake] at h
        subst h
        have hnot : (entry proc n).waiting = 1 → a.2 ≤ (entry proc n).exec := fun hw => by
          by_contra hlt
          exact htake ⟨by omega, hw⟩
        rcases ih with ⟨rfl, hall⟩ | ⟨ha, hw, hval, hmax, hleast⟩
        · refine Or.inl ⟨rfl, fun i hi hiw => ?_⟩
          rcases Nat.lt_succ_iff_lt_or_eq.mp hi with hi | rfl
          · exact hall i hi hiw
          · exact hnot hiw
        · refine Or.inr ⟨by omega, hw, hval, hmax, fun j hj hjw => ?_⟩
          rcases Nat.lt_succ_iff_lt_or_eq.mp hj with hj | rfl
          · exact hleast j hj hjw
          · have := hnot hjw
            omega

/-- `find_min_index` returns 0 without having met a candidate, or the first
    waiting entry with least `exec`, which is below `INT_MAX`. -/
theorem Psjf.findMinIndex_cases (proc : List Process) :
    (Psjf.findMinIndex proc = 0 ∧
      ∀ i < proc.length, (entry proc i).waiting = 1 → intMax ≤ (entry proc i).exec) ∨
      (Psjf.findMinIndex proc < proc.length ∧
        (entry proc (Psjf.findMinIndex proc)).waiting = 1 ∧
        (entry proc (Psjf.findMinIndex proc)).exec < intMax ∧
        ∀ j < proc.length, (entry proc j).waiting = 1 →
          (entry proc (Psjf.findMinIndex proc)).exec < (entry proc j).exec ∨
            (entry proc (Psjf.findMinIndex proc)).exec = (entry proc j).exec ∧
              Psjf.findMinIndex proc ≤ j) := by
  rw [Psjf.findMinIndex]
  generalize hacc : (List.range proc.length).foldl _ (0, intMax) = acc
  rcases Psjf.foldl_min hacc with ⟨rfl, hall⟩ | ⟨hlt, hwait, hval, hmax, hleast⟩
  · exact Or.inl ⟨rfl, hall⟩
  · rw [hval]
    exact Or.inr ⟨hlt, hwait, hmax, hleast⟩

/-- The comparison with `INT_MAX` loses no candidate: all `exec` are below it,
    or there is one entry only, which is also where the search starts. -/
def BelowMax (proc : List Process) : Prop :=
  proc.length = 1 ∨ ∀ i < proc.length, (entry proc i).exec < intMax

/-- `find_min_index` returns the first waiting entry with least `exec`. -/
theorem Psjf.findMinIndex_spec {proc : List Process} (hmax : BelowMax proc)
    (hex : ∃ i < proc.length, (entry proc i).waiting = 1) :
    Psjf.findMinIndex proc < proc.length ∧ (entry proc (Psjf.findMinIndex proc)).waiting = 1 ∧
      ∀ j < proc.length, (entry proc j).waiting = 1 →
        (entry proc (Psjf.findMinIndex proc)).exec < (entry proc j).exec ∨
          (entry proc (Psjf.findMinIndex proc)).exec = (entry proc j).exec ∧
            Psjf.findMinIndex proc ≤ j := by
  obtain ⟨i, hi, hw⟩ := hex
  rcases Psjf.findMinIndex_cases proc with ⟨hzero, hall⟩ | ⟨hlt, hwait, -, hleast⟩
  · rcases hmax with hone | hmax
    · obtain rfl : i = 0 := by omega
      rw [hzero]
      refine ⟨by omega, hw, fun j hj _ => ?_⟩
      obtain rfl : j = 0 := by omega
      exact Or.inr ⟨rfl, Nat.le_refl _⟩
    · have h₁ := hall i hi hw
      have h₂ := hmax i hi
      omega
  · exact ⟨hlt, hwait, hleast⟩

theorem Psjf.someProcessIsReady_iff {proc : List Process} :
    Psjf.someProcessIsReady proc = true ↔ ∃ i < proc.length, (entry proc i).waiting = 1 := by
  rw [Psjf.someProcessIsReady, List.any_eq_true]
  constructor
  · rintro ⟨p, hp, hw⟩
    obtain ⟨i, hi, rfl⟩ := List.mem_iff_getElem.mp hp
    exact ⟨i, hi, by rw [entry_eq_getElem hi]; exact of_decide_eq_true hw⟩
  · rintro ⟨i, hi, hw⟩
    exact ⟨entry proc i, entry_mem hi, decide_eq_true hw⟩

/-! ## The fork scan -/

/-- `spawn` forks one child, with a fresh pid, and enters it with `set`. -/
def Spawns (now : Nat) (set : Int → Process → Process)
    (spawn : Nat → Process → Log → Except Log (Process × Log)) : Prop :=
  ∀ i p log, ∃ pid new, spawn i p log = .ok (set pid p, log ++ new) ∧ 0 < pid ∧
    pid ∉ log.forked ∧ new.forked = [pid] ∧ new.marks = [(now, .fork i)]

/-- What the fork scan of `ps` at clock `now` returns, `pids k` being the pid of
    the child forked for the `k`-th entry. -/
structure Scanned (now : Nat) (set : Int → Process → Process) (i : Nat) (ps : List Process)
    (log : Log) (ps' : List Process) (new : Log) (pids : Nat → Int) : Prop where
  length_eq : ps'.length = ps.length
  entry_eq : ∀ k < ps.length, entry ps' k =
    if (entry ps k).ready = now then set (pids k) (entry ps k) else entry ps k
  pid_pos : ∀ k < ps.length, (entry ps k).ready = now → 0 < pids k
  pid_fresh : ∀ k < ps.length, (entry ps k).ready = now → pids k ∉ log.forked
  pid_mem : ∀ k < ps.length, (entry ps k).ready = now → pids k ∈ new.forked
  pid_inj : ∀ k < ps.length, ∀ l < ps.length, (entry ps k).ready = now →
    (entry ps l).ready = now → pids k = pids l → k = l
  marks_eq : new.marks =
    ((List.range ps.length).filter fun k => (entry ps k).ready = now).map
      fun k => (now, Mark.fork (i + k))

theorem entry_cons_zero (p : Process) (ps : List Process) : entry (p :: ps) 0 = p := rfl

theorem entry_cons_succ (p : Process) (ps : List Process) (k : Nat) :
    entry (p :: ps) (k + 1) = entry ps k := rfl

/-- Positions of a table with a new head. -/
theorem filter_range_cons (p : Process) (ps : List Process) (now : Nat) :
    ((List.range (p :: ps).length).filter fun k => (entry (p :: ps) k).ready = now) =
      (if p.ready = now then [0] else []) ++
        ((List.range ps.length).filter fun k => (entry ps k).ready = now).map Nat.succ := by
  have hsucc : (fun k => decide ((entry (p :: ps) k).ready = now)) ∘ Nat.succ
      = fun k => decide ((entry ps k).ready = now) := rfl
  rw [List.length_cons, List.range_succ_eq_map, List.filter_cons, List.filter_map, hsucc,
    entry_cons_zero]
  by_cases h : p.ready = now
  · rw [if_pos h, if_pos (decide_eq_true h), List.singleton_append]
  · rw [if_neg h, if_neg (by rw [decide_eq_true_iff]; exact h), List.nil_append]

/-- The pids of a table with a new head. -/
def consPids (pid : Int) (pids : Nat → Int) : Nat → Int
  | 0 => pid
  | k + 1 => pids k

namespace Scanned

variable {now : Nat} {set : Int → Process → Process} {i : Nat} {p : Process}
  {ps ps' : List Process} {log new : Log} {pids : Nat → Int}

/-- The scan of a table whose first entry is forked. -/
theorem fork {pid : Int} {first : Log} (h : Scanned now set (i + 1) ps (log ++ first) ps' new pids)
    (hp : p.ready = now) (hpos : 0 < pid) (hfresh : pid ∉ log.forked)
    (hforked : first.forked = [pid]) (hmarks : first.marks = [(now, .fork i)]) :
    Scanned now set i (p :: ps) log (set pid p :: ps') (first ++ new) (consPids pid pids) := by
  -- the later children get pids of their own
  have hlater : ∀ k < ps.length, (entry ps k).ready = now →
      pids k ∉ log.forked ∧ pids k ≠ pid := by
    intro k hk hkr
    have := h.pid_fresh k hk hkr
    rw [Log.forked_append, List.mem_append, not_or, hforked, List.mem_singleton] at this
    exact this
  constructor
  · exact congrArg (· + 1) h.length_eq
  · intro k hk
    cases k with
    | zero =>
        rw [entry_cons_zero, entry_cons_zero, if_pos hp]
        rfl
    | succ k => exact h.entry_eq k (Nat.lt_of_succ_lt_succ hk)
  · intro k hk hkr
    cases k with
    | zero => exact hpos
    | succ k => exact h.pid_pos k (Nat.lt_of_succ_lt_succ hk) hkr
  · intro k hk hkr
    cases k with
    | zero => exact hfresh
    | succ k => exact (hlater k (Nat.lt_of_succ_lt_succ hk) hkr).1
  · intro k hk hkr
    rw [Log.forked_append, hforked]
    cases k with
    | zero => exact List.mem_cons_self
    | succ k => exact List.mem_cons_of_mem _ (h.pid_mem k (Nat.lt_of_succ_lt_succ hk) hkr)
  · intro k hk l hl hkr hlr heq
    cases k with
    | zero =>
        cases l with
        | zero => rfl
        | succ l => exact absurd heq.symm (hlater l (Nat.lt_of_succ_lt_succ hl) hlr).2
    | succ k =>
        cases l with
        | zero => exact absurd heq (hlater k (Nat.lt_of_succ_lt_succ hk) hkr).2
        | succ l =>
            exact congrArg (· + 1) (h.pid_inj k (Nat.lt_of_succ_lt_succ hk) l
              (Nat.lt_of_succ_lt_succ hl) hkr hlr heq)
  · rw [filter_range_cons, if_pos hp, Log.marks_append, hmarks, h.marks_eq]
    simp only [List.cons_append, List.nil_append, List.map_cons, List.map_map, Nat.add_zero]
    congr 1
    apply List.map_congr_left
    intro k _
    simp only [Function.comp_apply, Nat.succ_eq_add_one]
    congr 2
    omega

/-- The scan of a table whose first entry is left alone. -/
theorem skip (h : Scanned now set (i + 1) ps log ps' new pids) (hp : p.ready ≠ now) :
    Scanned now set i (p :: ps) log (p :: ps') new (consPids 0 pids) := by
  constructor
  · exact congrArg (· + 1) h.length_eq
  · intro k hk
    cases k with
    | zero => rw [entry_cons_zero, entry_cons_zero, if_neg hp]
    | succ k => exact h.entry_eq k (Nat.lt_of_succ_lt_succ hk)
  · intro k hk hkr
    cases k with
    | zero => exact absurd hkr hp
    | succ k => exact h.pid_pos k (Nat.lt_of_succ_lt_succ hk) hkr
  · intro k hk hkr
    cases k with
    | zero => exact absurd hkr hp
    | succ k => exact h.pid_fresh k (Nat.lt_of_succ_lt_succ hk) hkr
  · intro k hk hkr
    cases k with
    | zero => exact absurd hkr hp
    | succ k => exact h.pid_mem k (Nat.lt_of_succ_lt_succ hk) hkr
  · intro k hk l hl hkr hlr heq
    cases k with
    | zero => exact absurd hkr hp
    | succ k =>
        cases l with
        | zero => exact absurd hlr hp
        | succ l =>
            exact congrArg (· + 1) (h.pid_inj k (Nat.lt_of_succ_lt_succ hk) l
              (Nat.lt_of_succ_lt_succ hl) hkr hlr heq)
  · rw [filter_range_cons, if_neg hp, h.marks_eq]
    simp only [List.nil_append, List.map_map]
    apply List.map_congr_left
    intro k _
    simp only [Function.comp_apply, Nat.succ_eq_add_one]
    congr 2
    omega

end Scanned

theorem forkScan_spec {now : Nat} {set : Int → Process → Process}
    {spawn : Nat → Process → Log → Except Log (Process × Log)} (hs : Spawns now set spawn)
    (i : Nat) (ps : List Process) (log : Log) :
    ∃ ps' new pids, forkScan spawn now i ps log = .ok (ps', log ++ new) ∧
      Scanned now set i ps log ps' new pids := by
  induction ps generalizing i log with
  | nil =>
      refine ⟨[], [], fun _ => 0, by simp [forkScan], ?_⟩
      constructor <;> simp
  | cons p ps ih =>
      by_cases hp : p.ready = now
      · obtain ⟨pid, first, hspawn, hpos, hfresh, hforked, hmarks⟩ := hs i p log
        obtain ⟨ps', new, pids, hscan, hspec⟩ := ih (i + 1) (log ++ first)
        refine ⟨_, _, _, ?_, hspec.fork hp hpos hfresh hforked hmarks⟩
        simp only [forkScan, if_pos hp, hspawn, hscan, List.append_assoc]
      · obtain ⟨ps', new, pids, hscan, hspec⟩ := ih (i + 1) log
        refine ⟨_, _, _, ?_, hspec.skip hp⟩
        simp only [forkScan, if_neg hp, hscan]

/-- A scan that goes through does so at its first entry and at the others. -/
theorem forkScan_cons {now : Nat} {spawn : Nat → Process → Log → Except Log (Process × Log)}
    {i : Nat} {p : Process} {ps ps' : List Process} {log log' : Log} :
    forkScan spawn now i (p :: ps) log = .ok (ps', log') ↔ ∃ p₁ log₁ ps₁,
      (if p.ready = now then spawn i p log else .ok (p, log)) = .ok (p₁, log₁) ∧
        forkScan spawn now (i + 1) ps log₁ = .ok (ps₁, log') ∧ ps' = p₁ :: ps₁ := by
  constructor
  · intro h
    rw [forkScan] at h
    split at h
    · simp at h
    · next p₁ log₁ hfirst =>
      split at h
      · simp at h
      · next ps₁ log₂ hrest =>
        simp only [Except.ok.injEq, Prod.mk.injEq] at h
        obtain ⟨rfl, rfl⟩ := h
        exact ⟨p₁, log₁, ps₁, hfirst, hrest, rfl⟩
  · rintro ⟨p₁, log₁, ps₁, hfirst, hrest, rfl⟩
    simp only [forkScan, hfirst, hrest]

/-- The scans of two tables with the same ready times fork the same children. -/
theorem forkScan_pair {now : Nat} {set : Int → Process → Process}
    {spawn : Nat → Process → Log → Except Log (Process × Log)}
    (hspawn : ∀ i p p' log x, spawn i p log = .ok x →
      ∃ pid, x.1 = set pid p ∧ spawn i p' log = .ok (set pid p', x.2))
    {i : Nat} {ps ps' qs : List Process} {log log' : Log} (hlen : ps'.length = ps.length)
    (hready : ∀ k < ps.length, (entry ps' k).ready = (entry ps k).ready)
    (h : forkScan spawn now i ps log = .ok (qs, log')) :
    ∃ (qs' : List Process) (pids : Nat → Int),
      forkScan spawn now i ps' log = .ok (qs', log') ∧ qs.length = ps.length ∧
      qs'.length = ps'.length ∧ ∀ k < ps.length,
        entry qs k = (if (entry ps k).ready = now then set (pids k) (entry ps k)
          else entry ps k) ∧
        entry qs' k = if (entry ps k).ready = now then set (pids k) (entry ps' k)
          else entry ps' k := by
  induction ps generalizing i log ps' qs with
  | nil =>
      obtain rfl := List.length_eq_zero_iff.mp hlen
      simp only [forkScan, Except.ok.injEq, Prod.mk.injEq] at h
      obtain ⟨rfl, rfl⟩ := h
      exact ⟨[], fun _ => 0, rfl, rfl, rfl, fun k hk => absurd hk (Nat.not_lt_zero k)⟩
  | cons p ps ih =>
      obtain ⟨p', ps', rfl⟩ := List.exists_cons_of_length_eq_add_one hlen
      have hp : p'.ready = p.ready := hready 0 (Nat.succ_pos _)
      have hrest : ∀ k < ps.length, (entry ps' k).ready = (entry ps k).ready := fun k hk =>
        hready (k + 1) (Nat.succ_lt_succ hk)
      obtain ⟨p₁, log₁, ps₁, hfirst, hscan, rfl⟩ := forkScan_cons.mp h
      obtain ⟨qs', pids, hscan', hl, hl', hspec⟩ := ih (Nat.succ_inj.mp hlen) hrest hscan
      -- the head is forked on both sides or on none
      obtain ⟨pid, p₁', hfirst', hp₁, hp₁'⟩ : ∃ pid p₁',
          (if p'.ready = now then spawn i p' log else .ok (p', log)) = .ok (p₁', log₁) ∧
            p₁ = (if p.ready = now then set pid p else p) ∧
            p₁' = if p.ready = now then set pid p' else p' := by
        by_cases hnow : p.ready = now
        · rw [if_pos hnow] at hfirst
          obtain ⟨pid, hset, hsame⟩ := hspawn i p p' log _ hfirst
          exact ⟨pid, set pid p', by rw [hp, if_pos hnow]; exact hsame,
            by rw [if_pos hnow]; exact hset, by rw [if_pos hnow]⟩
        · rw [if_neg hnow, Except.ok.injEq, Prod.mk.injEq] at hfirst
          obtain ⟨rfl, rfl⟩ := hfirst
          exact ⟨0, p', by rw [hp, if_neg hnow], by rw [if_neg hnow], by rw [if_neg hnow]⟩
      refine ⟨p₁' :: qs', fun k => if k = 0 then pid else pids (k - 1), ?_, ?_, ?_, ?_⟩
      · simp only [forkScan, hfirst', hscan']
      · simp only [List.length_cons, hl]
      · simp only [List.length_cons, hl']
      · intro k hk
        cases k with
        | zero => exact ⟨hp₁, hp₁'⟩
        | succ k => exact hspec k (by simpa using hk)

section

variable {now : Nat} {spawn : Nat → Process → Log → Except Log (Process × Log)}

/-- What every fork keeps, the fork scan keeps. -/
theorem forkScan_keeps {P : Log → Prop}
    (hspawn : ∀ i p log p' log', spawn i p log = .ok (p', log') → P log → P log')
    {i : Nat} {ps ps' : List Process} {log log' : Log}
    (h : forkScan spawn now i ps log = .ok (ps', log')) (hP : P log) : P log' := by
  induction ps generalizing i log ps' with
  | nil =>
      simp only [forkScan, Except.ok.injEq, Prod.mk.injEq] at h
      rw [← h.2]
      exact hP
  | cons p ps ih =>
      obtain ⟨p₁, log₁, ps₁, hfirst, hrest, -⟩ := forkScan_cons.mp h
      apply ih hrest
      split at hfirst
      · exact hspawn _ _ _ _ _ hfirst hP
      · simp only [Except.ok.injEq, Prod.mk.injEq] at hfirst
        rw [← hfirst.2]
        exact hP

/-- The scan changes the entries whose ready time has come as a fork does, and
    no others. -/
theorem forkScan_entries {R : Process → Process → Prop}
    (hspawn : ∀ i p log p' log', spawn i p log = .ok (p', log') → R p p')
    {i : Nat} {ps ps' : List Process} {log log' : Log}
    (h : forkScan spawn now i ps log = .ok (ps', log')) : ps'.length = ps.length ∧
      ∀ k < ps.length, if (entry ps k).ready = now then R (entry ps k) (entry ps' k)
        else entry ps' k = entry ps k := by
  induction ps generalizing i log ps' with
  | nil =>
      simp only [forkScan, Except.ok.injEq, Prod.mk.injEq] at h
      rw [← h.1]
      exact ⟨rfl, fun k hk => absurd hk (Nat.not_lt_zero k)⟩
  | cons p ps ih =>
      obtain ⟨p₁, log₁, ps₁, hfirst, hrest, rfl⟩ := forkScan_cons.mp h
      obtain ⟨hlen, hentry⟩ := ih hrest
      refine ⟨congrArg (· + 1) hlen, fun k hk => ?_⟩
      cases k with
      | zero =>
          rw [entry_cons_zero, entry_cons_zero]
          split
          · next hready =>
            rw [if_pos hready] at hfirst
            exact hspawn _ _ _ _ _ hfirst
          · next hready =>
            rw [if_neg hready, Except.ok.injEq, Prod.mk.injEq] at hfirst
            exact hfirst.1.symm
      | succ k => exact hentry k (by simpa using hk)

/-- What a fork establishes for its entry and later forks keep holds of every
    entry forked by the scan. -/
theorem forkScan_each {Q : Process → Log → Prop}
    (hnew : ∀ i p log p' log', spawn i p log = .ok (p', log') → Q p' log')
    (hkeep : ∀ i p log p' log' x, spawn i p log = .ok (p', log') → Q x log → Q x log')
    {i : Nat} {ps ps' : List Process} {log log' : Log}
    (h : forkScan spawn now i ps log = .ok (ps', log')) :
    ∀ k < ps.length, (entry ps k).ready = now → Q (entry ps' k) log' := by
  induction ps generalizing i log ps' with
  | nil => exact fun k hk => absurd hk (Nat.not_lt_zero k)
  | cons p ps ih =>
      intro k hk hready
      obtain ⟨p₁, log₁, ps₁, hfirst, hrest, rfl⟩ := forkScan_cons.mp h
      cases k with
      | zero =>
          rw [entry_cons_zero] at hready ⊢
          rw [if_pos hready] at hfirst
          exact forkScan_keeps (fun _ _ _ _ _ hs => hkeep _ _ _ _ _ _ hs) hrest
            (hnew _ _ _ _ _ hfirst)
      | succ k => exact ih hrest k (by simpa using hk) hready

end

end ProcSched
