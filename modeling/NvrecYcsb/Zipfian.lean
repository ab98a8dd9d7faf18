/-
  NvrecYcsb/Zipfian.lean
  ======================
  **The zipfian generator** (`core/zipfian_generator.h`), over exact reals.

  `Next(num)` draws `u` and compares `u * zeta_n_` with the weight of the first
  item and with that of the first two; a draw behind them goes through a power.
  A count larger than all before first raises `zeta_n_` and computes `eta_` anew,
  with the count the generator was built for.  The minimum `base_` is added in
  the last branch only.

  A `double` is a real number here.  A division by zero and the power of a
  negative number give none, and a number outside of `uint64_t` cannot be
  converted to it.

  * `grow_spec`, `pick_spec`: the two parts of `Next` in a generator that is
    `Sound`;
  * `powerBase_spec`: the power is taken of a positive number;
  * `inRange_iff`: when the result of `Next()` is between minimum and maximum.
-/
import NvrecYcsb.CoreWorkload
import NvrecYcsb.PowerLaw

namespace NvrecYcsb.Workload

open CppRuntime PowerLaw

/-! ### The generator -/

structure ZipfianGenerator where
  numItems : UInt64
  base : UInt64
  theta : ℝ
  zetaN : ℝ
  eta : Option ℝ -- `none` when it is not a number
  alpha : ℝ
  zeta2 : ℝ
  nForZeta : UInt64
  lastValue : UInt64

noncomputable def kZipfianConst : ℝ := 0.99

/-- The division of doubles. -/
noncomputable def divide (x y : ℝ) : Option ℝ := if y = 0 then none else some (x / y)

/-- The conversion of a `double` to `uint64_t`. -/
noncomputable def toUInt64 (x : ℝ) : Outcome UInt64 :=
  if -1 < x ∧ x < 2 ^ 64 then .returned (UInt64.ofNat ⌊x⌋₊) else .undefined

namespace ZipfianGenerator

/-- `Zeta` from `lastNum` on: the loop over `i`. -/
noncomputable def zetaFrom (lastNum curNum : UInt64) (theta lastZeta : ℝ) : ℝ :=
  (List.range' (lastNum.toNat + 1) (curNum.toNat - lastNum.toNat)).foldl
    (fun (zeta : ℝ) (i : Nat) => zeta + 1 / (i : ℝ) ^ theta) lastZeta

/-- `Zeta` from scratch. -/
noncomputable def zeta (num : UInt64) (theta : ℝ) : ℝ := zetaFrom 0 num theta 0

/-- `RaiseZeta`, with its assertion. -/
noncomputable def raiseZeta (g : ZipfianGenerator) (num : UInt64) : Outcome ZipfianGenerator :=
  if g.nForZeta ≤ num then
    .returned { g with
      zetaN := zetaFrom g.nForZeta num g.theta g.zetaN
      nForZeta := num }
  else .aborted

/-- `Eta`, once `zeta_n_` is positive. -/
noncomputable def computeEta (g : ZipfianGenerator) : Option ℝ :=
  divide (1 - (2 / (g.numItems.toNat : ℝ)) ^ (1 - g.theta)) (1 - g.zeta2 / g.zetaN)

/-- `if (num > n_for_zeta_)` of `Next`. -/
noncomputable def grow (g : ZipfianGenerator) (num : UInt64) : Outcome ZipfianGenerator :=
  if g.nForZeta < num then do
    let g ← g.raiseZeta num
    .returned { g with eta := g.computeEta }
  else .returned g

/-- `eta_ * u - eta_ + 1`. -/
noncomputable def powerBase (g : ZipfianGenerator) (u : ℝ) : Option ℝ :=
  g.eta.map fun eta => eta * u - eta + 1

/-- `base_ + num * std::pow(eta_ * u - eta_ + 1, alpha_)`. -/
noncomputable def tail (g : ZipfianGenerator) (num : UInt64) (u : ℝ) : Outcome UInt64 :=
  match g.powerBase u with
  | none => .undefined
  | some b =>
    if b < 0 then .undefined
    else toUInt64 ((g.base.toNat : ℝ) + (num.toNat : ℝ) * b ^ g.alpha)

/-- The draw falls behind the first two items. -/
def ReachesTail (g : ZipfianGenerator) (u : ℝ) : Prop := 1 + (0.5 : ℝ) ^ g.theta ≤ u * g.zetaN

/-- The three branches of `Next`. -/
noncomputable def pick (g : ZipfianGenerator) (num : UInt64) (u : ℝ) : Outcome UInt64 :=
  let uz := u * g.zetaN
  if uz < 1 then .returned 0
  else if uz < 1 + (0.5 : ℝ) ^ g.theta then .returned 1
  else g.tail num u

/-- `Next(num)`, with its assertion, for the draw `u`. -/
noncomputable def next (g : ZipfianGenerator) (num : UInt64) (u : ℝ) :
    Outcome (UInt64 × ZipfianGenerator) :=
  if 2 ≤ num ∧ num < kMaxNumItems then do
    let g ← g.grow num
    let value ← g.pick num u
    .returned (value, { g with lastValue := value })
  else .aborted

/-- `Next()`. -/
noncomputable def nextAll (g : ZipfianGenerator) (u : ℝ) : Outcome (UInt64 × ZipfianGenerator) :=
  g.next g.numItems u

/-- The constructor, with its assertion; `u` is the draw of the `Next()` it ends
    with, which sets `last_value_`. -/
noncomputable def construct (min max : UInt64) (theta u : ℝ) : Outcome ZipfianGenerator :=
  let numItems := max - min + 1
  if 2 ≤ numItems ∧ numItems < kMaxNumItems then do
    let g : ZipfianGenerator :=
      { numItems := numItems, base := min, theta := theta, zetaN := 0, eta := none
        alpha := 1 / (1 - theta), zeta2 := zeta 2 theta, nForZeta := 0, lastValue := 0 }
    let g ← g.raiseZeta numItems
    let (_, g) ← { g with eta := g.computeEta }.nextAll u
    .returned g
  else .aborted

/-- Calls of `Next(num)`, each with its draw. -/
noncomputable def nexts (g : ZipfianGenerator) : List (UInt64 × ℝ) → Outcome ZipfianGenerator
  | [] => .returned g
  | (num, u) :: calls => do
    let (_, g) ← g.next num u
    g.nexts calls

/-- Calls of `Next()`, each with its draw. -/
noncomputable def draws (g : ZipfianGenerator) : List ℝ → Outcome ZipfianGenerator
  | [] => .returned g
  | u :: us => do
    let (_, g) ← g.nextAll u
    g.draws us

/-- A generator is built and called, and then once more. -/
noncomputable def nextAfter (min max : UInt64) (theta u₀ : ℝ) (us : List ℝ) (u : ℝ) :
    Outcome (UInt64 × ZipfianGenerator) := do
  let g ← construct min max theta u₀
  let g ← g.draws us
  g.nextAll u

end ZipfianGenerator

/-- A value of `RandomDouble`. -/
def Draw (u : ℝ) : Prop := 0 ≤ u ∧ u < 1

/-- The numbers of items that the assertions admit. -/
def Items (num : UInt64) : Prop := 2 ≤ num ∧ num < kMaxNumItems

instance : DecidablePred Items := fun num =>
  inferInstanceAs (Decidable (2 ≤ num ∧ num < kMaxNumItems))

theorem kZipfianConst_pos : 0 < kZipfianConst := by norm_num [kZipfianConst]

theorem kZipfianConst_lt_one : kZipfianConst < 1 := by norm_num [kZipfianConst]

theorem draw_zero : Draw 0 := ⟨le_refl _, zero_lt_one⟩

namespace ZipfianGenerator

/-! ### The sums -/

theorem zetaFrom_eq (theta lastZeta : ℝ) (lastNum curNum : UInt64) (hle : lastNum ≤ curNum) :
    zetaFrom lastNum curNum theta lastZeta =
      lastZeta + (zetaSum theta curNum.toNat - zetaSum theta lastNum.toNat) := by
  have hnat : lastNum.toNat ≤ curNum.toNat := UInt64.le_iff_toNat_le.mp hle
  obtain ⟨n, hn⟩ := Nat.exists_eq_add_of_le hnat
  rw [zetaFrom, hn, Nat.add_sub_cancel_left]
  generalize lastNum.toNat = m
  clear hn hnat hle
  induction n with
  | zero => simp
  | succ n ih =>
    have hweight : (1 : ℝ) / ((m + 1 + n : ℕ) : ℝ) ^ theta = ((m + n + 1 : ℕ) : ℝ) ^ (-theta) := by
      rw [Nat.add_right_comm, Real.rpow_neg (Nat.cast_nonneg _), one_div]
    rw [List.range'_1_concat, List.foldl_append, ih, ← Nat.add_assoc, zetaSum_succ]
    simp only [List.foldl_cons, List.foldl_nil, hweight]
    ring

/-- The loop from scratch sums the weights. -/
theorem zeta_eq (num : UInt64) (theta : ℝ) : zeta num theta = zetaSum theta num.toNat := by
  rw [zeta, zetaFrom_eq theta 0 0 num (UInt64.zero_le)]
  simp

/-! ### The invariant -/

/-- What the members hold from the end of the first `RaiseZeta` on. -/
structure Sound (g : ZipfianGenerator) : Prop where
  theta_pos : 0 < g.theta
  theta_lt : g.theta < 1
  alpha : g.alpha = 1 / (1 - g.theta)
  items : 2 ≤ g.numItems
  grown : g.numItems ≤ g.nForZeta
  zeta2 : g.zeta2 = zetaSum g.theta 2
  zetaN : g.zetaN = zetaSum g.theta g.nForZeta.toNat
  eta : g.eta = g.computeEta

variable {g : ZipfianGenerator} {num : UInt64} {u : ℝ}

theorem Sound.two_le (h : g.Sound) : 2 ≤ g.nForZeta.toNat :=
  UInt64.le_iff_toNat_le.mp (UInt64.le_trans h.items h.grown)

theorem Sound.reachesTail_iff (h : g.Sound) :
    g.ReachesTail u ↔ zetaSum g.theta 2 ≤ u * zetaSum g.theta g.nForZeta.toNat := by
  rw [ReachesTail, h.zetaN, zetaSum_two]
  norm_num

theorem max_of_le {a b : UInt64} (h : a ≤ b) : max a b = b := if_pos h

theorem max_of_ge {a b : UInt64} (h : b ≤ a) : max a b = a := by
  by_cases hle : a ≤ b
  · rw [max_of_le hle]
    exact UInt64.le_antisymm h hle
  · exact if_neg hle

/-- **The first part of `Next`.**  The sum is that of the largest count so far. -/
theorem grow_spec (h : g.Sound) (num : UInt64) :
    ∃ g', g.grow num = .returned g' ∧ g'.Sound ∧ g'.nForZeta = max g.nForZeta num ∧
      g'.numItems = g.numItems ∧ g'.base = g.base ∧ g'.theta = g.theta := by
  rw [grow]
  by_cases hlt : g.nForZeta < num
  · have hle : g.nForZeta ≤ num := UInt64.le_of_lt hlt
    rw [if_pos hlt, raiseZeta, if_pos hle]
    refine ⟨_, rfl, ⟨h.theta_pos, h.theta_lt, h.alpha, h.items, UInt64.le_trans h.grown hle,
      h.zeta2, ?_, rfl⟩, (max_of_le hle).symm, rfl, rfl, rfl⟩
    show zetaFrom g.nForZeta num g.theta g.zetaN = zetaSum g.theta num.toNat
    rw [zetaFrom_eq _ _ _ _ hle, h.zetaN]
    ring
  · rw [if_neg hlt]
    exact ⟨g, rfl, h, (max_of_ge (UInt64.not_lt.mp hlt)).symm, rfl, rfl, rfl⟩

/-- The ratio of the sums of the first two and of all items. -/
noncomputable def ratio (g : ZipfianGenerator) : ℝ := zetaSum g.theta 2 / g.zetaN

/-- In the tail `eta_` is a number, and the base of the power is on the line. -/
theorem powerBase_of_tail (h : g.Sound) (hu : u < 1) (htail : g.ReachesTail u) :
    g.ratio < 1 ∧ g.ratio ≤ u ∧ 2 < g.nForZeta.toNat ∧
      g.powerBase u = some (slope (least g.theta 2 g.numItems.toNat) g.ratio * u -
        slope (least g.theta 2 g.numItems.toNat) g.ratio + 1) := by
  have hbehind := h.reachesTail_iff.mp htail
  have hmore := two_lt_of_behind h.two_le hu hbehind
  have hpos : 0 < g.zetaN := by
    rw [h.zetaN]
    exact zetaSum_pos (by omega)
  have hratio : g.ratio < 1 := by
    rw [ratio, div_lt_one hpos, h.zetaN]
    exact zetaSum_strictMono g.theta hmore
  have hle : g.ratio ≤ u := by
    rw [ratio, div_le_iff₀ hpos, h.zetaN]
    exact hbehind
  have hdivisor : 1 - g.ratio ≠ 0 := by linarith
  have heta : g.eta = some (slope (least g.theta 2 g.numItems.toNat) g.ratio) := by
    rw [h.eta, computeEta, divide, h.zeta2]
    exact if_neg hdivisor
  refine ⟨hratio, hle, hmore, ?_⟩
  rw [powerBase, heta]
  rfl

/-- **The base of the power is positive in the tail**, at most one, and less for
    more than two items. -/
theorem powerBase_spec (h : g.Sound) (hu : u < 1) (htail : g.ReachesTail u) :
    ∃ b, g.powerBase u = some b ∧ 0 < b ∧ b ≤ 1 ∧ (3 ≤ g.numItems.toNat → b < 1) := by
  obtain ⟨hratio, hle, -, hbase⟩ := powerBase_of_tail h hu htail
  have hitems : 2 ≤ g.numItems.toNat := UInt64.le_iff_toNat_le.mp h.items
  have hone := least_le_one h.theta_lt two_pos hitems
  refine ⟨_, hbase, ?_, line_le_one hone hratio hu.le, ?_⟩
  · exact lt_of_lt_of_le (least_pos two_pos hitems) (le_line hone hratio hle)
  · intro hthree
    exact line_lt_one (least_lt_one h.theta_lt hthree) hratio hu

theorem toUInt64_spec {x : ℝ} (hpos : 0 ≤ x) (hlt : x < 2 ^ 64) :
    ∃ v, toUInt64 x = .returned v ∧ v.toNat = ⌊x⌋₊ := by
  have hfloor : ⌊x⌋₊ < 2 ^ 64 := by
    rw [Nat.floor_lt hpos]
    exact_mod_cast hlt
  rw [toUInt64, if_pos ⟨by linarith, hlt⟩]
  exact ⟨_, rfl, UInt64.toNat_ofNat_of_lt' hfloor⟩

/-- What the tail computes can be converted. -/
def Fits (g : ZipfianGenerator) (num : UInt64) : Prop :=
  g.base.toNat + num.toNat < 2 ^ 64 ∨
    (g.base.toNat + num.toNat = 2 ^ 64 ∧ g.nForZeta = g.numItems)

/-- The value of `Next`, by the branch that the draw takes. -/
structure Picked (g : ZipfianGenerator) (num : UInt64) (u : ℝ) (v : UInt64) : Prop where
  first : u * g.zetaN < 1 → v = 0
  second : 1 ≤ u * g.zetaN → ¬g.ReachesTail u → v = 1
  least : g.ReachesTail u → g.base ≤ v
  most : g.ReachesTail u → v.toNat ≤ g.base.toNat + num.toNat
  below : g.ReachesTail u → 3 ≤ g.numItems.toNat → v.toNat < g.base.toNat + num.toNat

theorem tail_spec (h : g.Sound) (hu : u < 1) (hnum : 2 ≤ num) (hfits : g.Fits num)
    (htail : g.ReachesTail u) :
    ∃ v, g.tail num u = .returned v ∧ g.base ≤ v ∧ v.toNat ≤ g.base.toNat + num.toNat ∧
      (3 ≤ g.numItems.toNat → v.toNat < g.base.toNat + num.toNat) := by
  obtain ⟨b, hb, hpos, hone, hless⟩ := powerBase_spec h hu htail
  have halpha : 0 < g.alpha := by
    rw [h.alpha]
    have htheta := h.theta_lt
    apply one_div_pos.mpr
    linarith
  have hp : 0 ≤ b ^ g.alpha := Real.rpow_nonneg hpos.le _
  have hp_one : b ^ g.alpha ≤ 1 := Real.rpow_le_one hpos.le hone halpha.le
  have hp_lt : 3 ≤ g.numItems.toNat → b ^ g.alpha < 1 := fun hthree =>
    Real.rpow_lt_one hpos.le (hless hthree) halpha
  have hnum_pos : 0 < num.toNat := by
    have htwo : 2 ≤ num.toNat := UInt64.le_iff_toNat_le.mp hnum
    omega
  have hcast : (0 : ℝ) < num.toNat := by exact_mod_cast hnum_pos
  have hlt : (g.base.toNat : ℝ) + num.toNat * b ^ g.alpha < 2 ^ 64 := by
    rcases hfits with hroom | ⟨hroom, hsame⟩
    · have hroom' : (g.base.toNat : ℝ) + num.toNat < 2 ^ 64 := by exact_mod_cast hroom
      nlinarith
    · have hmore := (powerBase_of_tail h hu htail).2.2.1
      rw [hsame] at hmore
      have hp_lt := hp_lt hmore
      have hroom' : (g.base.toNat : ℝ) + num.toNat = 2 ^ 64 := by exact_mod_cast hroom
      nlinarith
  have hnonneg : 0 ≤ (g.base.toNat : ℝ) + num.toNat * b ^ g.alpha := by positivity
  obtain ⟨v, hv, hfloor⟩ := toUInt64_spec hnonneg hlt
  refine ⟨v, ?_, ?_, ?_, fun hthree => ?_⟩
  · rw [tail, hb]
    exact (if_neg (not_lt.mpr hpos.le)).trans hv
  · rw [UInt64.le_iff_toNat_le, hfloor]
    exact le_floor_add_mul hp
  · rw [hfloor]
    exact floor_add_mul_le hp_one
  · rw [hfloor]
    exact floor_add_mul_lt hnum_pos hp (hp_lt hthree)

theorem not_reachesTail_of_lt (hfirst : u * g.zetaN < 1) : ¬g.ReachesTail u := by
  intro htail
  rw [ReachesTail] at htail
  have hpos : (0 : ℝ) < (0.5 : ℝ) ^ g.theta := Real.rpow_pos_of_pos (by norm_num) _
  linarith

/-- **The second part of `Next`** returns, in every branch. -/
theorem pick_spec (h : g.Sound) (hu : u < 1) (hnum : 2 ≤ num) (hfits : g.Fits num) :
    ∃ v, g.pick num u = .returned v ∧ g.Picked num u v := by
  rw [pick]
  by_cases hfirst : u * g.zetaN < 1
  · have htail : ¬g.ReachesTail u := not_reachesTail_of_lt hfirst
    refine ⟨0, if_pos hfirst, fun _ => rfl, fun hge => absurd hfirst (not_lt.mpr hge), ?_, ?_, ?_⟩
    · exact fun hreached => absurd hreached htail
    · exact fun hreached => absurd hreached htail
    · exact fun hreached => absurd hreached htail
  by_cases htail : g.ReachesTail u
  · obtain ⟨v, hv, hleast, hmost, hbelow⟩ := tail_spec h hu hnum hfits htail
    refine ⟨v, ?_, fun hlt => absurd hlt hfirst, fun _ hnot => absurd htail hnot, fun _ => hleast,
      fun _ => hmost, fun _ => hbelow⟩
    simp only [if_neg hfirst]
    exact (if_neg (not_lt.mpr htail)).trans hv
  · refine ⟨1, ?_, fun hlt => absurd hlt hfirst, fun _ _ => rfl, ?_, ?_, ?_⟩
    · simp only [if_neg hfirst]
      exact if_pos (not_le.mp htail)
    · exact fun hreached => absurd hreached htail
    · exact fun hreached => absurd hreached htail
    · exact fun hreached => absurd hreached htail

theorem Sound.setLastValue (h : g.Sound) (v : UInt64) : { g with lastValue := v }.Sound :=
  ⟨h.theta_pos, h.theta_lt, h.alpha, h.items, h.grown, h.zeta2, h.zetaN, h.eta⟩

/-- **One call of `Next(num)`.** -/
theorem next_spec (h : g.Sound) (hnum : Items num) (hu : Draw u)
    (hfits : ∀ g', g.grow num = .returned g' → g'.Fits num) :
    ∃ g' v, g.grow num = .returned g' ∧ g'.Picked num u v ∧
      g.next num u = .returned (v, { g' with lastValue := v }) := by
  obtain ⟨g', hgrow, hsound, -⟩ := grow_spec h num
  obtain ⟨v, hpick, hpicked⟩ := pick_spec hsound hu.2 hnum.1 (hfits g' hgrow)
  have hassert : 2 ≤ num ∧ num < kMaxNumItems := hnum
  refine ⟨g', v, hgrow, hpicked, ?_⟩
  rw [next, if_pos hassert, hgrow]
  simp only [Outcome.returned_bind, hpick]

/-! ### Calls of `Next()` -/

/-- A generator that only `Next()` has been called on. -/
structure Built (min count : UInt64) (θ : ℝ) (g : ZipfianGenerator) : Prop where
  sound : g.Sound
  base : g.base = min
  numItems : g.numItems = count
  theta : g.theta = θ
  nForZeta : g.nForZeta = count

section Built

variable {min max numItems : UInt64} {theta : ℝ}

theorem nextAll_spec (h : g.Built min numItems theta) (hitems : Items numItems)
    (hroom : min.toNat + numItems.toNat ≤ 2 ^ 64) (hu : Draw u) :
    ∃ v, g.Picked numItems u v ∧ g.nextAll u = .returned (v, { g with lastValue := v }) := by
  have hgrow : g.grow numItems = .returned g := by
    rw [grow, h.nForZeta]
    exact if_neg (UInt64.lt_irrefl _)
  have hfits : g.Fits numItems := by
    rw [Fits, h.base, h.nForZeta, h.numItems]
    rcases Nat.lt_or_eq_of_le hroom with hlt | heq
    · exact Or.inl hlt
    · exact Or.inr ⟨heq, rfl⟩
  obtain ⟨g', v, hgrow', hpicked, hnext⟩ := next_spec h.sound hitems hu (by
    intro g' hg'
    rw [hgrow] at hg'
    obtain rfl := Outcome.returned.inj hg'
    exact hfits)
  rw [hgrow] at hgrow'
  obtain rfl := Outcome.returned.inj hgrow'
  have hall : g.nextAll u = g.next numItems u := by rw [nextAll, h.numItems]
  exact ⟨v, hpicked, hall.trans hnext⟩

theorem Built.setLastValue (h : g.Built min numItems theta) (v : UInt64) :
    Built min numItems theta { g with lastValue := v } :=
  ⟨h.sound.setLastValue v, h.base, h.numItems, h.theta, h.nForZeta⟩

theorem built_draws (h : g.Built min numItems theta) (hitems : Items numItems)
    (hroom : min.toNat + numItems.toNat ≤ 2 ^ 64) {us : List ℝ} (hus : ∀ u ∈ us, Draw u) :
    ∃ g', g.draws us = .returned g' ∧ g'.Built min numItems theta := by
  induction us generalizing g with
  | nil => exact ⟨g, rfl, h⟩
  | cons u us ih =>
    obtain ⟨v, -, hnext⟩ := nextAll_spec h hitems hroom (hus u List.mem_cons_self)
    obtain ⟨g', hg', hbuilt⟩ := ih (h.setLastValue v) fun w hw => hus w (List.mem_cons_of_mem u hw)
    refine ⟨g', ?_, hbuilt⟩
    rw [draws, hnext]
    exact hg'

/-- What the constructor has built before it calls `Next()`. -/
theorem construct_eq (hpos : 0 < theta) (hlt : theta < 1) (hitems : Items (max - min + 1)) (u : ℝ) :
    ∃ g, Built min (max - min + 1) theta g ∧
      construct min max theta u = (g.nextAll u >>= fun r => .returned r.2) := by
  generalize hn : max - min + 1 = numItems at hitems
  let start : ZipfianGenerator :=
    { numItems := numItems, base := min, theta := theta, zetaN := 0, eta := none
      alpha := 1 / (1 - theta), zeta2 := zeta 2 theta, nForZeta := 0, lastValue := 0 }
  have hzero : start.nForZeta ≤ numItems := UInt64.zero_le
  let raised : ZipfianGenerator := { start with
    zetaN := zetaFrom 0 numItems theta 0
    nForZeta := numItems }
  refine ⟨{ raised with eta := raised.computeEta }, ⟨⟨hpos, hlt, rfl, hitems.1, ?_, ?_, ?_, rfl⟩,
    rfl, rfl, rfl, rfl⟩, ?_⟩
  · exact UInt64.le_refl _
  · exact zeta_eq 2 theta
  · exact zeta_eq numItems theta
  · have hraise : start.raiseZeta numItems = .returned raised := if_pos hzero
    have hassert : 2 ≤ numItems ∧ numItems < kMaxNumItems := hitems
    rw [construct]
    simp only [hn]
    rw [if_pos hassert]
    show (start.raiseZeta numItems >>= _) = _
    rw [hraise]
    rfl

theorem built_construct (hpos : 0 < theta) (hlt : theta < 1) (hitems : Items (max - min + 1))
    (hroom : min.toNat + (max - min + 1).toNat ≤ 2 ^ 64) (hu : Draw u) :
    ∃ g, construct min max theta u = .returned g ∧ g.Built min (max - min + 1) theta := by
  obtain ⟨g, hbuilt, hconstruct⟩ := construct_eq hpos hlt hitems u
  obtain ⟨v, -, hfirst⟩ := nextAll_spec hbuilt hitems hroom hu
  refine ⟨_, ?_, hbuilt.setLastValue v⟩
  rw [hconstruct, hfirst]
  rfl

/-- After any calls of `Next()`, one more is a call on the generator as built. -/
theorem nextAfter_spec (hpos : 0 < theta) (hlt : theta < 1) (hitems : Items (max - min + 1))
    (hroom : min.toNat + (max - min + 1).toNat ≤ 2 ^ 64) {u₀ : ℝ} (hu₀ : Draw u₀) {us : List ℝ}
    (hus : ∀ u ∈ us, Draw u) (hu : Draw u) :
    ∃ g v, Built min (max - min + 1) theta g ∧ g.Picked (max - min + 1) u v ∧
      nextAfter min max theta u₀ us u = .returned (v, { g with lastValue := v }) := by
  obtain ⟨start, hconstruct, hstart⟩ := built_construct hpos hlt hitems hroom hu₀
  obtain ⟨g, hdraws, hbuilt⟩ := built_draws hstart hitems hroom hus
  obtain ⟨v, hpicked, hnext⟩ := nextAll_spec hbuilt hitems hroom hu
  refine ⟨g, v, hbuilt, hpicked, ?_⟩
  rw [nextAfter, hconstruct]
  simp only [Outcome.returned_bind, hdraws]
  exact hnext

/-! ### The range -/

/-- The call returns a value between `min` and `max`. -/
def InRange (min max : UInt64) (result : Outcome (UInt64 × ZipfianGenerator)) : Prop :=
  ∃ v g, result = .returned (v, g) ∧ min ≤ v ∧ v ≤ max

/-- The number of items, when the maximum is not below the minimum. -/
theorem items_add_min (hle : min ≤ max) (hitems : Items (max - min + 1)) :
    min.toNat + (max - min + 1).toNat = max.toNat + 1 := by
  have htwo : 2 ≤ (max - min + 1).toNat := UInt64.le_iff_toNat_le.mp hitems.1
  have hnat : min.toNat ≤ max.toNat := UInt64.le_iff_toNat_le.mp hle
  have hsub : (max - min).toNat = max.toNat - min.toNat := UInt64.toNat_sub_of_le _ _ hle
  have hmax : max.toNat < 2 ^ 64 := max.toNat_lt
  rw [UInt64.toNat_add, hsub] at htwo ⊢
  have hone : (1 : UInt64).toNat = 1 := rfl
  rw [hone] at htwo ⊢
  omega

/-- The branches of `Next()` against the range: the first two return constants, the
    last one a value that is in it. -/
theorem Picked.range_iff {v : UInt64} (h : g.Picked (max - min + 1) u v)
    (hbuilt : g.Built min (max - min + 1) theta) (hle : min ≤ max)
    (hitems : Items (max - min + 1)) (hu : Draw u) :
    min ≤ v ∧ v ≤ max ↔ min = 0 ∨ (min = 1 ∧ 1 ≤ u * g.zetaN) ∨ g.ReachesTail u := by
  have hsum := items_add_min hle hitems
  have htwo : 2 ≤ (max - min + 1).toNat := UInt64.le_iff_toNat_le.mp hitems.1
  have hzero : min = 0 ↔ min.toNat = 0 := UInt64.toNat_inj.symm
  have hone : min = 1 ↔ min.toNat = 1 := UInt64.toNat_inj.symm
  rw [UInt64.le_iff_toNat_le, UInt64.le_iff_toNat_le, hzero, hone]
  by_cases hfirst : u * g.zetaN < 1
  · have htail : ¬g.ReachesTail u := not_reachesTail_of_lt hfirst
    have hv : v.toNat = 0 := congrArg UInt64.toNat (h.first hfirst)
    simp only [htail, not_le.mpr hfirst, and_false, or_false, hv]
    omega
  have hge : 1 ≤ u * g.zetaN := not_lt.mp hfirst
  by_cases htail : g.ReachesTail u
  · have hmore := (powerBase_of_tail hbuilt.sound hu.2 htail).2.2.1
    rw [hbuilt.nForZeta, ← hbuilt.numItems] at hmore
    have hleast := UInt64.le_iff_toNat_le.mp (h.least htail)
    have hbelow := h.below htail hmore
    rw [hbuilt.base] at hleast hbelow
    refine iff_of_true ⟨hleast, ?_⟩ (Or.inr (Or.inr htail))
    omega
  · have hv : v.toNat = 1 := congrArg UInt64.toNat (h.second hge htail)
    simp only [htail, hge, and_true, or_false, hv]
    omega

/-- **`Next()` stays in its range exactly when the draw takes no branch whose
    constant is below the minimum.**  The first two branches return 0 and 1 where
    the last one adds `base_`.  For every generator that the constructor accepts,
    every history of draws and every draw. -/
theorem inRange_iff (hpos : 0 < theta) (hlt : theta < 1) (hitems : Items (max - min + 1))
    {u₀ : ℝ} (hu₀ : Draw u₀) {us : List ℝ} (hus : ∀ u ∈ us, Draw u) (hu : Draw u) :
    InRange min max (nextAfter min max theta u₀ us u) ↔
      min ≤ max ∧
        (min = 0 ∨ (min = 1 ∧ 1 ≤ u * zeta (max - min + 1) theta) ∨
          1 + (0.5 : ℝ) ^ theta ≤ u * zeta (max - min + 1) theta) := by
  rw [zeta_eq]
  -- with the maximum below the minimum nothing is in the range
  by_cases hle : min ≤ max
  swap
  · refine iff_of_false ?_ fun h => hle h.1
    rintro ⟨v, g, -, hmin, hmax⟩
    exact hle (UInt64.le_trans hmin hmax)
  have hsum := items_add_min hle hitems
  have hmax : max.toNat < 2 ^ 64 := max.toNat_lt
  obtain ⟨g, v, hbuilt, hpicked, hnext⟩ :=
    nextAfter_spec hpos hlt hitems (by omega) hu₀ hus hu
  have hzeta : g.zetaN = zetaSum theta (max - min + 1).toNat := by
    rw [hbuilt.sound.zetaN, hbuilt.nForZeta, hbuilt.theta]
  have htail_iff : g.ReachesTail u ↔
      1 + (0.5 : ℝ) ^ theta ≤ u * zetaSum theta (max - min + 1).toNat := by
    rw [ReachesTail, hzeta, hbuilt.theta]
  have hvalue : InRange min max (nextAfter min max theta u₀ us u) ↔ min ≤ v ∧ v ≤ max := by
    constructor
    · rintro ⟨w, g', hw, hrange⟩
      rw [hnext] at hw
      obtain ⟨rfl, -⟩ := Prod.mk.inj (Outcome.returned.inj hw)
      exact hrange
    · rintro hrange
      exact ⟨v, _, hnext, hrange⟩
  rw [hvalue, and_iff_right hle, ← htail_iff, ← hzeta]
  exact hpicked.range_iff hbuilt hle hitems hu

/-- The chooser of field lengths from 1 to 100 yields 0 for the draw 0. -/
theorem not_inRange_fieldLength :
    (∃ g, nextAfter 1 100 kZipfianConst 0 [] 0 = .returned (0, g)) ∧
      ¬InRange 1 100 (nextAfter 1 100 kZipfianConst 0 [] 0) := by
  have hlast : ∃ g v, Built 1 (100 - 1 + 1) kZipfianConst g ∧ g.Picked (100 - 1 + 1) 0 v ∧
      nextAfter 1 100 kZipfianConst 0 [] 0 = .returned (v, { g with lastValue := v }) :=
    nextAfter_spec kZipfianConst_pos kZipfianConst_lt_one (by decide) (by decide) draw_zero
      (List.forall_mem_nil _) draw_zero
  obtain ⟨g, v, -, hpicked, hnext⟩ := hlast
  obtain rfl : v = 0 := hpicked.first (by norm_num)
  refine ⟨⟨_, hnext⟩, ?_⟩
  rintro ⟨w, g', hw, hmin, -⟩
  rw [hnext] at hw
  obtain ⟨rfl, -⟩ := Prod.mk.inj (Outcome.returned.inj hw)
  exact absurd hmin (by decide)

theorem inRange_iff_fieldLength :
    InRange 1 100 (nextAfter 1 100 kZipfianConst 0 [] 0) ↔
      (1 : UInt64) ≤ 100 ∧
        ((1 : UInt64) = 0 ∨ ((1 : UInt64) = 1 ∧ 1 ≤ (0 : ℝ) * zeta (100 - 1 + 1) kZipfianConst) ∨
          1 + (0.5 : ℝ) ^ kZipfianConst ≤ (0 : ℝ) * zeta (100 - 1 + 1) kZipfianConst) :=
  inRange_iff kZipfianConst_pos kZipfianConst_lt_one (by decide) draw_zero
    (List.forall_mem_nil _) draw_zero

end Built

end ZipfianGenerator

end NvrecYcsb.Workload
