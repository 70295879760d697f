/-
  ProcSched.Lib.Makespan

  The arrival curve of a list of (release, length) pairs and the time at which
  it is drained.  For pairs in release order that time is the value of the
  recurrence `B k = max (B (k - 1)) (release k) + length k`, `B 0 = 0`
  (`drain_eq_totalOf_iff`).
-/

import ProcSched.Lib.Schedule
import Mathlib.Algebra.BigOperators.Group.List.Lemmas

namespace ProcSched
namespace Jobs

/-- Work of `l` released up to and including time `t`. -/
def arrivedOf (l : List (ℕ × ℕ)) (t : ℕ) : ℕ :=
  (l.map fun x => if x.1 ≤ t then x.2 else 0).sum

/-- All the work of `l`. -/
def totalOf (l : List (ℕ × ℕ)) : ℕ := (l.map Prod.snd).sum

/-- The recurrence `B k = max (B (k - 1)) (release k) + length k`. -/
def finishTime (l : List (ℕ × ℕ)) : ℕ := l.foldl (fun b x => max b x.1 + x.2) 0

@[simp] theorem arrivedOf_nil (t : ℕ) : arrivedOf [] t = 0 := rfl

@[simp] theorem totalOf_nil : totalOf [] = 0 := rfl

@[simp] theorem finishTime_nil : finishTime [] = 0 := rfl

theorem arrivedOf_append (l m : List (ℕ × ℕ)) (t : ℕ) :
    arrivedOf (l ++ m) t = arrivedOf l t + arrivedOf m t := by
  simp [arrivedOf]

theorem totalOf_append (l m : List (ℕ × ℕ)) : totalOf (l ++ m) = totalOf l + totalOf m := by
  simp [totalOf]

theorem finishTime_snoc (l : List (ℕ × ℕ)) (x : ℕ × ℕ) :
    finishTime (l ++ [x]) = max (finishTime l) x.1 + x.2 := by
  simp [finishTime]

theorem arrivedOf_perm {l m : List (ℕ × ℕ)} (h : l.Perm m) (t : ℕ) :
    arrivedOf l t = arrivedOf m t :=
  (h.map _).sum_eq

theorem totalOf_perm {l m : List (ℕ × ℕ)} (h : l.Perm m) : totalOf l = totalOf m :=
  (h.map _).sum_eq

/-- Once everything is released the arrival curve is flat. -/
theorem arrivedOf_eq_totalOf {l : List (ℕ × ℕ)} {t : ℕ} (h : ∀ x ∈ l, x.1 ≤ t) :
    arrivedOf l t = totalOf l := by
  rw [arrivedOf, totalOf]
  congr 1
  exact List.map_congr_left fun x hx => if_pos (h x hx)

theorem arrivedOf_mono (l : List (ℕ × ℕ)) : Monotone (arrivedOf l) := by
  intro s t hst
  apply List.sum_le_sum
  intro x _
  split <;> split <;> omega

/-- With a pair of positive length still to come, work is missing. -/
theorem arrivedOf_lt_totalOf {l : List (ℕ × ℕ)} {t : ℕ} {x : ℕ × ℕ} (hx : x ∈ l)
    (ht : t < x.1) (hpos : 0 < x.2) : arrivedOf l t < totalOf l := by
  refine List.sum_lt_sum _ _ (fun y _ => by split <;> omega) ⟨x, hx, ?_⟩
  rw [if_neg (by omega)]
  exact hpos

theorem drain_le {A : ℕ → ℕ} (hA : Monotone A) (t : ℕ) : drain A t ≤ A t := by
  refine le_trans ?_ (drain_succ_le hA t)
  rw [drain_succ]
  exact Nat.le_add_right _ _

/-- From the last release on, the work left is `finishTime` minus the clock. -/
theorem drain_add_finishTime_sub {l : List (ℕ × ℕ)}
    (hsorted : l.Pairwise fun x y => x.1 ≤ y.1) {t : ℕ} (ht : ∀ x ∈ l, x.1 ≤ t) :
    drain (arrivedOf l) t + (finishTime l - t) = totalOf l := by
  induction l using List.reverseRecOn generalizing t with
  | nil =>
      have : drain (arrivedOf []) t ≤ 0 := drain_le (arrivedOf_mono []) t
      simp only [finishTime_nil, totalOf_nil]
      omega
  | append_singleton l x ih =>
      obtain ⟨hl, -, hlast⟩ := List.pairwise_append.mp hsorted
      have hbefore : ∀ y ∈ l, y.1 ≤ x.1 := fun y hy => hlast y hy x (List.mem_singleton_self x)
      have htotal : totalOf (l ++ [x]) = totalOf l + x.2 := by
        rw [totalOf_append]; simp [totalOf]
      have hx : x.1 ≤ t := ht x (by simp)
      -- at the release of `x` the earlier pairs have drained as if alone
      have hbase : drain (arrivedOf (l ++ [x])) x.1 + (finishTime (l ++ [x]) - x.1)
          = totalOf (l ++ [x]) := by
        have hsame : drain (arrivedOf (l ++ [x])) x.1 = drain (arrivedOf l) x.1 := by
          apply drain_congr
          intro u hu
          rw [arrivedOf_append]
          simp [arrivedOf, Nat.not_le.mpr hu]
        have hih := ih hl hbefore
        rw [hsame, htotal, finishTime_snoc]
        omega
      clear ht
      induction t, hx using Nat.le_induction with
      | base => exact hbase
      | succ t hx iht =>
          have hall : arrivedOf (l ++ [x]) t = totalOf (l ++ [x]) := by
            apply arrivedOf_eq_totalOf
            intro y hy
            rcases List.mem_append.mp hy with hy | hy
            · exact (hbefore y hy).trans hx
            · rw [List.mem_singleton.mp hy]
              exact hx
          rw [drain_succ, hall]
          split <;> omega

theorem release_le_finishTime {l : List (ℕ × ℕ)} {x : ℕ × ℕ} (hx : x ∈ l) :
    x.1 ≤ finishTime l := by
  induction l using List.reverseRecOn with
  | nil => simp at hx
  | append_singleton l y ih =>
      rw [finishTime_snoc]
      rcases List.mem_append.mp hx with hx | hx
      · have := ih hx
        omega
      · rw [List.mem_singleton.mp hx]
        omega

/-- `finishTime` is exactly when the arrival curve is drained. -/
theorem drain_eq_totalOf_iff {l : List (ℕ × ℕ)} (hsorted : l.Pairwise fun x y => x.1 ≤ y.1)
    (hpos : ∀ x ∈ l, 0 < x.2) (t : ℕ) :
    drain (arrivedOf l) t = totalOf l ↔ finishTime l ≤ t := by
  constructor
  · intro h
    have hreleased : ∀ x ∈ l, x.1 ≤ t := by
      intro x hx
      by_contra hlt
      have h₁ := arrivedOf_lt_totalOf hx (Nat.lt_of_not_le hlt) (hpos x hx)
      have h₂ := drain_le (arrivedOf_mono l) t
      omega
    have := drain_add_finishTime_sub hsorted hreleased
    omega
  · intro h
    have := drain_add_finishTime_sub hsorted
      fun x hx => (release_le_finishTime hx).trans h
    omega

/-- The processor is done no later than if it waited for the last release. -/
theorem finishTime_le {l : List (ℕ × ℕ)} {m : ℕ} (h : ∀ x ∈ l, x.1 ≤ m) :
    finishTime l ≤ m + totalOf l := by
  induction l using List.reverseRecOn with
  | nil => simp
  | append_singleton l x ih =>
      have hl := ih fun y hy => h y (List.mem_append_left _ hy)
      have hx := h x (by simp)
      rw [finishTime_snoc, totalOf_append]
      simp only [totalOf, List.map_cons, List.map_nil, List.sum_cons, List.sum_nil] at *
      omega

end Jobs
end ProcSched
