/-
  NvrecYcsb/CumulativeShares.lean
  ===============================
  **Cutting an interval into shares, and the share a point lies in.**

  Shares laid end to end from zero cut an interval at their partial sums.  A
  point is found by taking one share after another off it until what is left is
  smaller than the next share (`stop`); no partial sum is ever formed.

  * `stop_eq_iff`: the search stops at share `i` exactly when the point lies
    between the two partial sums that bound it;
  * `stop_lt_length_iff`: it stops at all exactly when the point lies below the
    sum of all shares;
  * `cutPoint_div`: scaling the shares scales the cut points.
-/
import Mathlib.Algebra.Field.Basic
import Mathlib.Algebra.Order.BigOperators.Group.List
import Mathlib.Algebra.Order.Group.Basic

namespace NvrecYcsb.CumulativeShares

section Cuts

variable {K : Type*} [AddCommGroup K]

/-- The end of the first `i` shares. -/
def cutPoint (shares : List K) (i : Nat) : K := (shares.take i).sum

@[simp] theorem cutPoint_zero (shares : List K) : cutPoint shares 0 = 0 := by simp [cutPoint]

@[simp] theorem cutPoint_cons_succ (w : K) (shares : List K) (i : Nat) :
    cutPoint (w :: shares) (i + 1) = w + cutPoint shares i := by simp [cutPoint]

end Cuts

section Search

variable {K : Type*} [AddCommGroup K] [LinearOrder K]

/-- The point `u` lies in share `i`. -/
def InShare (shares : List K) (u : K) (i : Nat) : Prop :=
  cutPoint shares i ≤ u ∧ u < cutPoint shares (i + 1)

/-- How many shares are taken off `u` before the next one is larger than the rest. -/
def stop : List K → K → Nat
  | [], _ => 0
  | w :: shares, u => if u < w then 0 else stop shares (u - w) + 1

variable [IsOrderedAddMonoid K]

theorem cutPoint_nonneg {shares : List K} (h : ∀ w ∈ shares, 0 ≤ w) (i : Nat) :
    0 ≤ cutPoint shares i := by
  apply List.sum_nonneg
  intro w hw
  exact h w (List.mem_of_mem_take hw)

/-- A share after the first is a share of the rest. -/
theorem inShare_cons_succ (w : K) (shares : List K) (u : K) (i : Nat) :
    InShare (w :: shares) u (i + 1) ↔ InShare shares (u - w) i := by
  rw [InShare, InShare, cutPoint_cons_succ, cutPoint_cons_succ, le_sub_iff_add_le',
    sub_lt_iff_lt_add']

/-- **The search finds the share the point lies in.** -/
theorem stop_eq_iff {shares : List K} (h : ∀ w ∈ shares, 0 ≤ w) {u : K} (hu : 0 ≤ u) {i : Nat}
    (hi : i < shares.length) : stop shares u = i ↔ InShare shares u i := by
  induction shares generalizing u i with
  | nil => cases hi
  | cons w shares ih =>
    have hrest : ∀ v ∈ shares, 0 ≤ v := fun v hv => h v (List.mem_cons_of_mem w hv)
    rw [stop]
    by_cases hlt : u < w
    · rw [if_pos hlt]
      cases i with
      | zero => simp [InShare, hu, hlt]
      | succ i =>
        -- what lies in a later share is not below the first cut point
        have hnot : ¬InShare (w :: shares) u (i + 1) := by
          rintro ⟨hle, -⟩
          rw [cutPoint_cons_succ] at hle
          have hcut := cutPoint_nonneg hrest i
          exact absurd hlt (not_lt.mpr ((le_add_of_nonneg_right hcut).trans hle))
        simp [hnot]
    · rw [if_neg hlt]
      cases i with
      | zero => simp [InShare, hlt]
      | succ i =>
        have hsub : 0 ≤ u - w := sub_nonneg.mpr (not_lt.mp hlt)
        rw [Nat.succ_inj, inShare_cons_succ, ih hrest hsub (Nat.lt_of_succ_lt_succ hi)]

/-- **The search ends before the shares do** exactly below their sum. -/
theorem stop_lt_length_iff {shares : List K} (h : ∀ w ∈ shares, 0 ≤ w) {u : K} (hu : 0 ≤ u) :
    stop shares u < shares.length ↔ u < shares.sum := by
  induction shares generalizing u with
  | nil => simp [stop, hu]
  | cons w shares ih =>
    have hrest : ∀ v ∈ shares, 0 ≤ v := fun v hv => h v (List.mem_cons_of_mem w hv)
    rw [stop, List.sum_cons]
    by_cases hlt : u < w
    · have hsum : u < w + shares.sum := lt_add_of_lt_of_nonneg hlt (List.sum_nonneg hrest)
      simp [if_pos hlt, hsum]
    · have hsub : 0 ≤ u - w := sub_nonneg.mpr (not_lt.mp hlt)
      rw [if_neg hlt, List.length_cons, Nat.succ_lt_succ_iff, ih hrest hsub, sub_lt_iff_lt_add']

end Search

/-- Scaling the shares scales the cut points. -/
theorem cutPoint_div {K : Type*} [Field K] (weights : List K) (s : K) (i : Nat) :
    cutPoint (weights.map (· / s)) i = cutPoint weights i / s := by
  rw [cutPoint, cutPoint, ← List.map_take]
  induction weights.take i with
  | nil => simp
  | cons w weights ih => rw [List.map_cons, List.sum_cons, List.sum_cons, ih, add_div]

theorem cutPoint_length {K : Type*} [AddCommGroup K] (shares : List K) :
    cutPoint shares shares.length = shares.sum := by
  rw [cutPoint, List.take_length]

end NvrecYcsb.CumulativeShares
