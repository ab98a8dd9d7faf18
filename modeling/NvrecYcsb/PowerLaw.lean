/-
  NvrecYcsb/PowerLaw.lean
  =======================
  **The arithmetic of a power-law draw over `n` items.**

  Item `i` has weight `i ^ (-θ)`, and `zetaSum θ n` is the sum of the weights of
  the first `n` items.  A draw `u` in `[0, 1)` that falls behind the first two
  items, `zetaSum θ 2 ≤ u * zetaSum θ n`, is mapped to the others through a power
  of `slope r q * u - slope r q + 1`, the line that is `r` at `u = q` and `1` at
  `u = 1`.

  * `zetaSum_strictMono`: every item adds to the sum, so such draws exist for
    more than two items only;
  * `le_line`, `line_lt_one`: between `q` and `1` the line is between `r` and `1`.
-/
import Mathlib.Analysis.SpecialFunctions.Pow.Real
import Mathlib.Algebra.BigOperators.Intervals

namespace NvrecYcsb.PowerLaw

open Finset

/-! ### Sums of weights -/

noncomputable def zetaSum (θ : ℝ) (n : ℕ) : ℝ := ∑ i ∈ Icc 1 n, (i : ℝ) ^ (-θ)

variable {θ : ℝ}

@[simp] theorem zetaSum_zero : zetaSum θ 0 = 0 := by simp [zetaSum]

theorem zetaSum_succ (n : ℕ) : zetaSum θ (n + 1) = zetaSum θ n + ((n + 1 : ℕ) : ℝ) ^ (-θ) := by
  rw [zetaSum, sum_Icc_succ_top (by omega), zetaSum]

theorem zetaSum_strictMono (θ : ℝ) : StrictMono (zetaSum θ) := by
  apply strictMono_nat_of_lt_succ
  intro n
  rw [zetaSum_succ]
  have hpos : (0 : ℝ) < ((n + 1 : ℕ) : ℝ) ^ (-θ) := by
    apply Real.rpow_pos_of_pos
    positivity
  linarith

theorem zetaSum_pos {n : ℕ} (hn : 0 < n) : 0 < zetaSum θ n := by
  simpa using zetaSum_strictMono θ hn

/-- The weights of the first two items. -/
theorem zetaSum_two : zetaSum θ 2 = 1 + (1 / 2 : ℝ) ^ θ := by
  rw [zetaSum_succ, zetaSum_succ]
  simp [Real.rpow_neg, Real.inv_rpow]

/-- A draw behind the first two items is one of more than two. -/
theorem two_lt_of_behind {n : ℕ} {u : ℝ} (hn : 2 ≤ n) (hu : u < 1)
    (hbehind : zetaSum θ 2 ≤ u * zetaSum θ n) : 2 < n := by
  have hpos : 0 < zetaSum θ n := zetaSum_pos (by omega)
  have hless : zetaSum θ 2 < zetaSum θ n := by nlinarith
  exact (zetaSum_strictMono θ).lt_iff_lt.mp hless

/-! ### The line from `r` at `q` to `1` at `1` -/

noncomputable def slope (r q : ℝ) : ℝ := (1 - r) / (1 - q)

section Line

variable {r q u : ℝ}

theorem slope_nonneg (hr : r ≤ 1) (hq : q < 1) : 0 ≤ slope r q := by
  apply div_nonneg <;> linarith

theorem slope_pos (hr : r < 1) (hq : q < 1) : 0 < slope r q := by
  apply div_pos <;> linarith

theorem le_line (hr : r ≤ 1) (hq : q < 1) (hu : q ≤ u) : r ≤ slope r q * u - slope r q + 1 := by
  have hat : slope r q * (1 - q) = 1 - r := div_mul_cancel₀ _ (by linarith)
  have hslope := slope_nonneg hr hq
  nlinarith

theorem line_le_one (hr : r ≤ 1) (hq : q < 1) (hu : u ≤ 1) :
    slope r q * u - slope r q + 1 ≤ 1 := by
  have hslope := slope_nonneg hr hq
  nlinarith

theorem line_lt_one (hr : r < 1) (hq : q < 1) (hu : u < 1) :
    slope r q * u - slope r q + 1 < 1 := by
  have hslope := slope_pos hr hq
  nlinarith

end Line

/-! ### The least value of the line -/

/-- The share of `k` items among `n`, to the power `1 - θ`. -/
noncomputable def least (θ : ℝ) (k n : ℕ) : ℝ := ((k : ℝ) / (n : ℝ)) ^ (1 - θ)

section Least

variable {k n : ℕ}

theorem least_pos (hk : 0 < k) (hn : k ≤ n) : 0 < least θ k n := by
  apply Real.rpow_pos_of_pos
  have hk' : (0 : ℝ) < k := by exact_mod_cast hk
  have hn' : (0 : ℝ) < n := by exact_mod_cast Nat.lt_of_lt_of_le hk hn
  exact div_pos hk' hn'

theorem least_le_one (hθ : θ < 1) (hk : 0 < k) (hn : k ≤ n) : least θ k n ≤ 1 := by
  have hn' : (0 : ℝ) < n := by exact_mod_cast Nat.lt_of_lt_of_le hk hn
  have hle : (k : ℝ) ≤ n := by exact_mod_cast hn
  apply Real.rpow_le_one
  · positivity
  · exact (div_le_one hn').mpr hle
  · linarith

theorem least_lt_one (hθ : θ < 1) (hn : k < n) : least θ k n < 1 := by
  have hn' : (0 : ℝ) < n := by exact_mod_cast Nat.zero_lt_of_lt hn
  have hlt : (k : ℝ) < n := by exact_mod_cast hn
  apply Real.rpow_lt_one
  · positivity
  · exact (div_lt_one hn').mpr hlt
  · linarith

end Least

/-! ### Powers as item numbers -/

theorem floor_add_mul_le {b n : ℕ} {p : ℝ} (hp : p ≤ 1) : ⌊(b : ℝ) + n * p⌋₊ ≤ b + n := by
  apply Nat.floor_le_of_le
  push_cast
  have hn : (0 : ℝ) ≤ n := n.cast_nonneg
  nlinarith

theorem floor_add_mul_lt {b n : ℕ} {p : ℝ} (hn : 0 < n) (hpos : 0 ≤ p) (hp : p < 1) :
    ⌊(b : ℝ) + n * p⌋₊ < b + n := by
  have hcast : (0 : ℝ) < n := by exact_mod_cast hn
  rw [Nat.floor_lt (by positivity)]
  push_cast
  nlinarith

theorem le_floor_add_mul {b n : ℕ} {p : ℝ} (hpos : 0 ≤ p) : b ≤ ⌊(b : ℝ) + n * p⌋₊ := by
  apply Nat.le_floor
  have hn : (0 : ℝ) ≤ n := n.cast_nonneg
  nlinarith

end NvrecYcsb.PowerLaw
