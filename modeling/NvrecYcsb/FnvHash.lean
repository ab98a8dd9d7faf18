/-
  NvrecYcsb/FnvHash.lean
  ======================
  **The hash of the key numbers** (`core/utils.h`).

  `FNVHash64` mixes the eight octets of a value into a 64-bit hash, least octet
  first, each by an exclusive or and a multiplication by an odd prime.  It is not
  injective by construction.  On values below `2^32` the upper four octets are
  zero, and it is: an exclusive or with an octet moves a state by less than 256,
  so the states reached from two values differ by a polynomial in the prime with
  small coefficients, and that polynomial vanishes modulo `2^64` only when all
  of its coefficients do (`coefficients_eq_zero`).

  * `mix_sub`: the difference of two states after one octet;
  * `fnvHash64_inj`: the hash tells values below `2^32` apart.
-/
import Mathlib.Data.Int.GCD
import Mathlib.Data.Int.ModEq
import Mathlib.Data.Nat.Bitwise
import Mathlib.Tactic.LinearCombination

namespace NvrecYcsb.FnvHash

def kFNVOffsetBasis64 : UInt64 := 0xCBF29CE484222325

def kFNVPrime64 : UInt64 := 1099511628211

/-- `hash = hash ^ octet; hash = hash * kFNVPrime64`. -/
def mix (hash octet : UInt64) : UInt64 := (hash ^^^ octet) * kFNVPrime64

/-- One turn of the loop of `FNVHash64`, on `hash` and what is left of `val`. -/
def fnvTurn (s : UInt64 × UInt64) : UInt64 × UInt64 := (mix s.1 (s.2 &&& 0x00ff), s.2 >>> 8)

/-- `FNVHash64`. -/
def fnvHash64 (val : UInt64) : UInt64 := (fnvTurn^[8] (kFNVOffsetBasis64, val)).1

/-- `Hash`. -/
def hash (val : UInt64) : UInt64 := fnvHash64 val

/-! ### The octets of a value -/

/-- Octet `i` of a value, the least octet first. -/
def octet (val : UInt64) (i : Nat) : Nat := val.toNat / 256 ^ i % 256

theorem octet_lt (val : UInt64) (i : Nat) : octet val i < 256 := Nat.mod_lt _ (by decide)

theorem octet_eq_zero {val : UInt64} (h : val.toNat < 2 ^ 32) {i : Nat} (hi : 4 ≤ i) :
    octet val i = 0 := by
  have hlt : val.toNat < 256 ^ i := by
    calc val.toNat < 256 ^ 4 := h
      _ ≤ 256 ^ i := Nat.pow_le_pow_right (by decide) hi
  rw [octet, Nat.div_eq_of_lt hlt, Nat.zero_mod]

/-- Four octets spell a value below `2^32`. -/
theorem eq_of_octets {a b : UInt64} (ha : a.toNat < 2 ^ 32) (hb : b.toNat < 2 ^ 32)
    (h : ∀ i < 4, octet a i = octet b i) : a = b := by
  have h0 := h 0 (by decide)
  have h1 := h 1 (by decide)
  have h2 := h 2 (by decide)
  have h3 := h 3 (by decide)
  simp only [octet, Nat.reducePow, Nat.div_one] at h0 h1 h2 h3
  apply UInt64.toNat_inj.mp
  omega

/-- The value with its low octets shifted out. -/
def shifted (val : UInt64) : Nat → UInt64
  | 0 => val
  | i + 1 => shifted val i >>> 8

theorem toNat_shifted (val : UInt64) (i : Nat) : (shifted val i).toNat = val.toNat / 256 ^ i := by
  induction i with
  | zero => simp [shifted]
  | succ i ih =>
    rw [shifted, UInt64.toNat_shiftRight, ih, Nat.pow_succ, ← Nat.div_div_eq_div_mul]
    exact Nat.shiftRight_eq_div_pow _ 8

theorem low_shifted (val : UInt64) (i : Nat) :
    shifted val i &&& 0x00ff = UInt64.ofNat (octet val i) := by
  apply UInt64.toNat_inj.mp
  have hlt : octet val i < 2 ^ 64 := (octet_lt val i).trans (by decide)
  rw [UInt64.toNat_ofNat_of_lt' hlt, UInt64.toNat_and, toNat_shifted, octet]
  exact Nat.and_two_pow_sub_one_eq_mod _ 8

/-- The hash after `i` octets. -/
def hashAfter (val : UInt64) : Nat → UInt64
  | 0 => kFNVOffsetBasis64
  | i + 1 => mix (hashAfter val i) (UInt64.ofNat (octet val i))

theorem hashAfter_succ_congr {a b : UInt64} {i : Nat} (h : hashAfter a i = hashAfter b i)
    (hoctet : octet a i = octet b i) : hashAfter a (i + 1) = hashAfter b (i + 1) := by
  rw [hashAfter, hashAfter, h, hoctet]

theorem fnvTurn_iterate (val : UInt64) (i : Nat) :
    fnvTurn^[i] (kFNVOffsetBasis64, val) = (hashAfter val i, shifted val i) := by
  induction i with
  | zero => rfl
  | succ i ih =>
    rw [Function.iterate_succ_apply', ih, fnvTurn]
    simp only [low_shifted]
    rfl

/-! ### The difference of two states -/

theorem toNat_xor_octet (x : UInt64) {o : Nat} (ho : o < 256) :
    ∃ low < 256, (x ^^^ UInt64.ofNat o).toNat = x.toNat / 256 * 256 + low ∧
      low = x.toNat % 256 ^^^ o := by
  have hoctet : (UInt64.ofNat o).toNat = o := UInt64.toNat_ofNat_of_lt' (ho.trans (by decide))
  have hdiv : (x.toNat ^^^ o) / 256 = x.toNat / 256 := by
    have h := Nat.xor_div_two_pow (a := x.toNat) (b := o) (n := 8)
    rwa [Nat.div_eq_of_lt (show o < 2 ^ 8 from ho), Nat.xor_zero] at h
  have hmod : (x.toNat ^^^ o) % 256 = x.toNat % 256 ^^^ o := by
    have h := Nat.xor_mod_two_pow (a := x.toNat) (b := o) (n := 8)
    rwa [Nat.mod_eq_of_lt (show o < 2 ^ 8 from ho)] at h
  refine ⟨x.toNat % 256 ^^^ o, ?_, ?_, rfl⟩
  · rw [← hmod]
    exact Nat.mod_lt _ (by decide)
  · rw [UInt64.toNat_xor, hoctet, ← hmod, ← hdiv]
    omega

/-- The difference of two states, as integers. -/
def gap (x y : UInt64) : Int := (x.toNat : Int) - y.toNat

theorem gap_mul (x y : UInt64) :
    gap (x * kFNVPrime64) (y * kFNVPrime64) ≡ 1099511628211 * gap x y [ZMOD 2 ^ 64] := by
  have hmul : ∀ z : UInt64,
      ((z * kFNVPrime64).toNat : Int) ≡ 1099511628211 * (z.toNat : Int) [ZMOD 2 ^ 64] := by
    intro z
    rw [UInt64.toNat_mul, Int.natCast_mod, Nat.cast_mul, Int.mul_comm]
    exact Int.mod_modEq _ _
  have h := (hmul x).sub (hmul y)
  rwa [← Int.mul_sub] at h

/-- **The difference after one octet.**  It is the prime times the difference
    before, changed by a small amount; equal states with no change had equal
    octets mixed in. -/
theorem mix_sub (x y : UInt64) {o o' : Nat} (ho : o < 256) (ho' : o' < 256) :
    ∃ c : Int, -510 ≤ c ∧ c ≤ 510 ∧
      gap (mix x (UInt64.ofNat o)) (mix y (UInt64.ofNat o')) ≡
        1099511628211 * (gap x y + c) [ZMOD 2 ^ 64] ∧
      (x = y → c = 0 → o = o') := by
  obtain ⟨l, hl, hx, hlo⟩ := toNat_xor_octet x ho
  obtain ⟨l', hl', hy, hlo'⟩ := toNat_xor_octet y ho'
  refine ⟨(l - (x.toNat % 256 : Nat)) - (l' - (y.toNat % 256 : Nat)), by omega, by omega, ?_, ?_⟩
  · have h := gap_mul (x ^^^ UInt64.ofNat o) (y ^^^ UInt64.ofNat o')
    have hgap : gap (x ^^^ UInt64.ofNat o) (y ^^^ UInt64.ofNat o') =
        gap x y + ((l - (x.toNat % 256 : Nat)) - (l' - (y.toNat % 256 : Nat))) := by
      rw [gap, gap, hx, hy]
      omega
    rwa [hgap] at h
  · rintro rfl hc
    have hll : l = l' := by omega
    rw [hlo, hlo'] at hll
    exact Nat.xor_right_injective hll

/-! ### Injectivity below `2^32` -/

/-- A polynomial in the prime with small coefficients vanishes modulo `2^64`
    only when its coefficients do: the prime is `2^40 + 435`, so the part that
    is not a multiple of `2^40` has to vanish first. -/
theorem coefficients_eq_zero {c0 c1 c2 c3 k : Int} (h0 : -510 ≤ c0 ∧ c0 ≤ 510)
    (h1 : -510 ≤ c1 ∧ c1 ≤ 510) (h2 : -510 ≤ c2 ∧ c2 ≤ 510) (h3 : -510 ≤ c3 ∧ c3 ≤ 510)
    (h : 1099511628211 * (1099511628211 * (1099511628211 * c0 + c1) + c2) + c3 = 2 ^ 64 * k) :
    c0 = 0 ∧ c1 = 0 ∧ c2 = 0 ∧ c3 = 0 := by
  obtain ⟨n, hn⟩ : ∃ n, n = k - 2 ^ 56 * c0 - 3 * 2 ^ 16 * 435 * c0 - 2 ^ 16 * c1 := ⟨_, rfl⟩
  have hsplit : 82312875 * c0 + 189225 * c1 + 435 * c2 + c3 =
      2 ^ 40 * (2 ^ 24 * n - (567675 * c0 + 870 * c1 + c2)) := by
    rw [hn]
    linear_combination h
  -- the left side is smaller than `2^40`
  have hhigh : 2 ^ 24 * n - (567675 * c0 + 870 * c1 + c2) = 0 := by omega
  have hlow : 82312875 * c0 + 189225 * c1 + 435 * c2 + c3 = 0 := by omega
  have hzero : 567675 * c0 + 870 * c1 + c2 = 0 := by omega
  omega

theorem prime_mul_modEq_zero {d : Int} (h : 1099511628211 * d ≡ 0 [ZMOD 2 ^ 64]) :
    d ≡ 0 [ZMOD 2 ^ 64] := by
  have hdvd : (2 ^ 64 : Int) ∣ 1099511628211 * d := Int.modEq_zero_iff_dvd.mp h
  exact Int.modEq_zero_iff_dvd.mpr (Int.dvd_of_dvd_mul_right_of_gcd_one hdvd (by decide))

/-- An octet that is zero multiplies the state. -/
theorem gap_mix_zero (x y : UInt64) :
    gap (mix x (UInt64.ofNat 0)) (mix y (UInt64.ofNat 0)) ≡
      1099511628211 * gap x y [ZMOD 2 ^ 64] := by
  have hzero : ∀ z : UInt64, z ^^^ UInt64.ofNat 0 = z := fun z => UInt64.xor_zero
  rw [mix, mix, hzero, hzero]
  exact gap_mul x y

/-- The zero octets of values below `2^32` are undone. -/
theorem gap_hashAfter_four {a b : UInt64} (ha : a.toNat < 2 ^ 32) (hb : b.toNat < 2 ^ 32)
    (h : fnvHash64 a = fnvHash64 b) : gap (hashAfter a 4) (hashAfter b 4) ≡ 0 [ZMOD 2 ^ 64] := by
  have hback : ∀ i, 4 ≤ i → gap (hashAfter a (i + 1)) (hashAfter b (i + 1)) ≡ 0 [ZMOD 2 ^ 64] →
      gap (hashAfter a i) (hashAfter b i) ≡ 0 [ZMOD 2 ^ 64] := by
    intro i hi hnext
    rw [hashAfter, hashAfter, octet_eq_zero ha hi, octet_eq_zero hb hi] at hnext
    exact prime_mul_modEq_zero ((gap_mix_zero _ _).symm.trans hnext)
  have hlast : gap (hashAfter a 8) (hashAfter b 8) ≡ 0 [ZMOD 2 ^ 64] := by
    rw [fnvHash64, fnvHash64, fnvTurn_iterate, fnvTurn_iterate] at h
    rw [show hashAfter a 8 = hashAfter b 8 from h, gap, Int.sub_self]
  exact hback 4 (by decide) (hback 5 (by decide) (hback 6 (by decide) (hback 7 (by decide) hlast)))

/-- **The hash tells values below `2^32` apart.** -/
theorem fnvHash64_inj {a b : UInt64} (ha : a.toNat < 2 ^ 32) (hb : b.toNat < 2 ^ 32)
    (h : fnvHash64 a = fnvHash64 b) : a = b := by
  obtain ⟨c0, hlo0, hhi0, hgap0, hsame0⟩ := mix_sub (hashAfter a 0) (hashAfter b 0)
    (octet_lt a 0) (octet_lt b 0)
  obtain ⟨c1, hlo1, hhi1, hgap1, hsame1⟩ := mix_sub (hashAfter a 1) (hashAfter b 1)
    (octet_lt a 1) (octet_lt b 1)
  obtain ⟨c2, hlo2, hhi2, hgap2, hsame2⟩ := mix_sub (hashAfter a 2) (hashAfter b 2)
    (octet_lt a 2) (octet_lt b 2)
  obtain ⟨c3, hlo3, hhi3, hgap3, hsame3⟩ := mix_sub (hashAfter a 3) (hashAfter b 3)
    (octet_lt a 3) (octet_lt b 3)
  have hstart : gap (hashAfter a 0) (hashAfter b 0) = 0 := Int.sub_self _
  rw [hstart, Int.zero_add] at hgap0
  have hone : gap (hashAfter a 1) (hashAfter b 1) + c1 ≡ 1099511628211 * c0 + c1 [ZMOD 2 ^ 64] :=
    hgap0.add_right c1
  have htwo : gap (hashAfter a 2) (hashAfter b 2) + c2 ≡
      1099511628211 * (1099511628211 * c0 + c1) + c2 [ZMOD 2 ^ 64] :=
    (hgap1.trans (hone.mul_left _)).add_right c2
  have hthree : gap (hashAfter a 3) (hashAfter b 3) + c3 ≡
      1099511628211 * (1099511628211 * (1099511628211 * c0 + c1) + c2) + c3 [ZMOD 2 ^ 64] :=
    (hgap2.trans (htwo.mul_left _)).add_right c3
  have hfour := prime_mul_modEq_zero (hgap3.symm.trans (gap_hashAfter_four ha hb h))
  obtain ⟨k, hk⟩ := Int.modEq_zero_iff_dvd.mp (hthree.symm.trans hfour)
  obtain ⟨rfl, rfl, rfl, rfl⟩ := coefficients_eq_zero ⟨hlo0, hhi0⟩ ⟨hlo1, hhi1⟩ ⟨hlo2, hhi2⟩
    ⟨hlo3, hhi3⟩ hk
  -- no state ever differed, so no octet did
  have hoctet0 : octet a 0 = octet b 0 := hsame0 rfl rfl
  have hstate1 : hashAfter a 1 = hashAfter b 1 := hashAfter_succ_congr rfl hoctet0
  have hoctet1 : octet a 1 = octet b 1 := hsame1 hstate1 rfl
  have hstate2 : hashAfter a 2 = hashAfter b 2 := hashAfter_succ_congr hstate1 hoctet1
  have hoctet2 : octet a 2 = octet b 2 := hsame2 hstate2 rfl
  have hstate3 : hashAfter a 3 = hashAfter b 3 := hashAfter_succ_congr hstate2 hoctet2
  have hoctet3 : octet a 3 = octet b 3 := hsame3 hstate3 rfl
  refine eq_of_octets ha hb ?_
  intro i hi
  match i, hi with
  | 0, _ => exact hoctet0
  | 1, _ => exact hoctet1
  | 2, _ => exact hoctet2
  | 3, _ => exact hoctet3

end NvrecYcsb.FnvHash
