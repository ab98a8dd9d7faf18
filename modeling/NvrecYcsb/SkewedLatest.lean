/-
  NvrecYcsb/SkewedLatest.lean
  ===========================
  **The latest distribution** (`core/skewed_latest_generator.h`).

  `Next` reads the last value of the counter and subtracts a zipfian number drawn
  for so many items.  The counter moves between the calls in any way, so the
  zipfian generator sees counts that grow and shrink, while `eta_` keeps using
  the count that the generator was built for.

  A call is given the counter as it reads it: what other threads do to the
  counter later in the call has no effect on it, and the zipfian generator is
  locked while it draws.

  * `latest_next`, `latest_nexts`: histories of `Next(num)` from minimum 0;
  * `latest_neverUnderflows`: the subtraction does not wrap.
-/
import NvrecYcsb.Zipfian

namespace NvrecYcsb.Workload

open CppRuntime PowerLaw

/-! ### The generator -/

structure SkewedLatestGenerator where
  zipfian : ZipfianGenerator
  last : UInt64

namespace SkewedLatestGenerator

/-- `Next`, for the counter that it reads and the draw `u`. -/
noncomputable def next (g : SkewedLatestGenerator) (basis : CounterGenerator) (u : ℝ) :
    Outcome (UInt64 × SkewedLatestGenerator) := do
  let max := basis.last
  let (value, zipfian) ← g.zipfian.next max u
  .returned (max - value, { zipfian := zipfian, last := max - value })

/-- The constructor: a generator for the last value of the counter, with the
    draw `u`, and a call of `Next` with the draw `u'`, which sets `last_`. -/
noncomputable def construct (basis : CounterGenerator) (u u' : ℝ) :
    Outcome SkewedLatestGenerator := do
  let zipfian ← ZipfianGenerator.construct 0 (basis.last - 1) kZipfianConst u
  let (_, g) ← { zipfian := zipfian, last := 0 : SkewedLatestGenerator }.next basis u'
  .returned g

/-- Calls of `Next`, each with its counter and its draw. -/
noncomputable def nexts (g : SkewedLatestGenerator) :
    List (CounterGenerator × ℝ) → Outcome SkewedLatestGenerator
  | [] => .returned g
  | (basis, u) :: calls => do
    let (_, g) ← g.next basis u
    g.nexts calls

end SkewedLatestGenerator

namespace ZipfianGenerator

/-! ### Histories of counts -/

/-- The largest count so far. -/
def largest (numItems : UInt64) (calls : List (UInt64 × ℝ)) : UInt64 :=
  calls.foldl (fun most call => max most call.1) numItems

/-- A generator with minimum 0, after calls of which `most` was the largest count. -/
structure Latest (count most : UInt64) (θ : ℝ) (g : ZipfianGenerator) : Prop where
  sound : g.Sound
  base : g.base = 0
  numItems : g.numItems = count
  theta : g.theta = θ
  nForZeta : g.nForZeta = most

variable {g : ZipfianGenerator} {count most num : UInt64} {θ u : ℝ}

theorem latest_grow (h : g.Latest count most θ) (num : UInt64) :
    ∃ g', g.grow num = .returned g' ∧ g'.Latest count (max most num) θ := by
  obtain ⟨g', hgrow, hsound, hmost, hitems, hbase, htheta⟩ := grow_spec h.sound num
  refine ⟨g', hgrow, hsound, hbase.trans h.base, hitems.trans h.numItems, htheta.trans h.theta, ?_⟩
  rw [hmost, h.nForZeta]

/-- **The number drawn is at most the count**, and less for three items or more. -/
theorem Picked.le {v : UInt64} (h : g.Picked num u v) (hbase : g.base = 0) (hnum : 2 ≤ num) :
    v ≤ num ∧ (3 ≤ g.numItems.toNat → v < num) := by
  have htwo : 2 ≤ num.toNat := UInt64.le_iff_toNat_le.mp hnum
  have hzero : g.base.toNat = 0 := congrArg UInt64.toNat hbase
  rw [UInt64.le_iff_toNat_le, UInt64.lt_iff_toNat_lt]
  by_cases hfirst : u * g.zetaN < 1
  · have hv : v.toNat = 0 := congrArg UInt64.toNat (h.first hfirst)
    constructor <;> omega
  by_cases htail : g.ReachesTail u
  · have hmost := h.most htail
    have hbelow := h.below htail
    constructor <;> omega
  · have hv : v.toNat = 1 := congrArg UInt64.toNat (h.second (not_lt.mp hfirst) htail)
    constructor <;> omega

theorem latest_next (h : g.Latest count most θ) (hnum : Items num) (hu : Draw u) :
    ∃ v g', g.next num u = .returned (v, g') ∧ g'.Latest count (max most num) θ ∧ v ≤ num ∧
      (3 ≤ count → v < num) := by
  obtain ⟨g', hgrow, hlatest⟩ := latest_grow h num
  have hsmall : num.toNat < 2 ^ 64 := num.toNat_lt
  have hfits : ∀ g'', g.grow num = .returned g'' → g''.Fits num := by
    intro g'' hg''
    rw [hgrow] at hg''
    obtain rfl := Outcome.returned.inj hg''
    have hzero : g'.base.toNat = 0 := congrArg UInt64.toNat hlatest.base
    left
    omega
  obtain ⟨g'', v, hgrow', hpicked, hnext⟩ := next_spec h.sound hnum hu hfits
  rw [hgrow] at hgrow'
  obtain rfl := Outcome.returned.inj hgrow'
  obtain ⟨hle, hlt⟩ := hpicked.le hlatest.base hnum.1
  refine ⟨v, _, hnext, ⟨hlatest.sound.setLastValue v, hlatest.base, hlatest.numItems,
    hlatest.theta, hlatest.nForZeta⟩, hle, fun hthree => hlt ?_⟩
  rw [hlatest.numItems]
  exact UInt64.le_iff_toNat_le.mp hthree

theorem latest_nexts {calls : List (UInt64 × ℝ)} (h : g.Latest count most θ)
    (hcalls : ∀ call ∈ calls, Items call.1 ∧ Draw call.2) :
    ∃ g', g.nexts calls = .returned g' ∧ g'.Latest count (largest most calls) θ := by
  induction calls generalizing g most with
  | nil => exact ⟨g, rfl, h⟩
  | cons call calls ih =>
    obtain ⟨hitems, hdraw⟩ := hcalls call List.mem_cons_self
    obtain ⟨v, g₁, hnext, hlatest, -⟩ := latest_next h hitems hdraw
    obtain ⟨g', hg', hlatest'⟩ := ih hlatest fun c hc => hcalls c (List.mem_cons_of_mem call hc)
    refine ⟨g', ?_, hlatest'⟩
    rw [nexts, hnext]
    exact hg'

/-- A generator for `numItems` items, counted from 0. -/
theorem latest_construct (hpos : 0 < θ) (hlt : θ < 1) {numItems : UInt64} (hitems : Items numItems)
    (hu : Draw u) :
    ∃ g, construct 0 (numItems - 1) θ u = .returned g ∧ g.Latest numItems numItems θ := by
  have hcount : numItems - 1 - 0 + 1 = numItems := by
    rw [UInt64.sub_zero, UInt64.sub_add_cancel]
  have hitems' : Items (numItems - 1 - 0 + 1) := by
    rw [hcount]
    exact hitems
  obtain ⟨start, hbuilt, hconstruct⟩ := construct_eq hpos hlt hitems' u
  rw [hcount] at hbuilt
  have hstart : start.Latest numItems numItems θ :=
    ⟨hbuilt.sound, hbuilt.base, hbuilt.numItems, hbuilt.theta, hbuilt.nForZeta⟩
  obtain ⟨v, g, hnext, hlatest, -⟩ := latest_next hstart hitems hu
  have hmax : max numItems numItems = numItems := max_of_le (UInt64.le_refl _)
  rw [hmax] at hlatest
  refine ⟨g, ?_, hlatest⟩
  rw [hconstruct, nextAll, hbuilt.numItems, hnext]
  rfl

/-! ### What holds after any history -/

/-- After a history whose largest count was `most`, on a generator for `count`
    items: the sum is that of `most`, the power has a positive base wherever it is
    reached, and a number drawn is at most the count it was drawn for. -/
structure Bounded (count most : UInt64) (θ : ℝ) (g : ZipfianGenerator) : Prop where
  nForZeta : g.nForZeta = most
  zetaN : g.zetaN = ∑ i ∈ Finset.Icc 1 most.toNat, (i : ℝ) ^ (-θ)
  fromScratch : g.zetaN = zeta most θ
  powerBase : ∀ num u, Items num → Draw u → ∀ g', g.grow num = .returned g' →
    g'.ReachesTail u → ∃ b, g'.powerBase u = some b ∧ 0 < b
  value : ∀ num u, Items num → Draw u →
    ∃ v g', g.next num u = .returned (v, g') ∧ v ≤ num ∧ (3 ≤ count → v < num)

theorem Latest.bounded (h : g.Latest count most θ) : g.Bounded count most θ := by
  have hsum : g.zetaN = zetaSum θ most.toNat := by
    rw [h.sound.zetaN, h.nForZeta, h.theta]
  refine ⟨h.nForZeta, hsum, ?_, ?_, ?_⟩
  · rw [hsum, zeta_eq]
  · intro num u _ hu g' hgrow htail
    obtain ⟨g'', hgrow', hlatest⟩ := latest_grow h num
    rw [hgrow] at hgrow'
    obtain rfl := Outcome.returned.inj hgrow'
    obtain ⟨b, hb, hpos, -⟩ := powerBase_spec hlatest.sound hu.2 htail
    exact ⟨b, hb, hpos⟩
  · intro num u hitems hu
    obtain ⟨v, g', hnext, -, hle, hlt⟩ := latest_next h hitems hu
    exact ⟨v, g', hnext, hle, hlt⟩

end ZipfianGenerator

namespace SkewedLatestGenerator

variable {g : SkewedLatestGenerator} {count most : UInt64} {basis : CounterGenerator} {u : ℝ}

/-- `Next` subtracts from the last value of the counter a number that is at most
    this value. -/
def NeverWraps (g : SkewedLatestGenerator) : Prop :=
  ∀ basis u, Items basis.last → Draw u →
    ∃ v z w g', g.zipfian.next basis.last u = .returned (v, z) ∧
      g.next basis u = .returned (w, g') ∧ w.toNat + v.toNat = basis.last.toNat ∧ w ≤ basis.last

theorem next_spec (h : g.zipfian.Latest count most kZipfianConst) (hitems : Items basis.last)
    (hu : Draw u) :
    ∃ v z, g.zipfian.next basis.last u = .returned (v, z) ∧
      g.next basis u = .returned (basis.last - v, ⟨z, basis.last - v⟩) ∧ v ≤ basis.last ∧
      z.Latest count (max most basis.last) kZipfianConst := by
  obtain ⟨v, z, hnext, hlatest, hle, -⟩ := ZipfianGenerator.latest_next h hitems hu
  refine ⟨v, z, hnext, ?_, hle, hlatest⟩
  rw [next, hnext]
  rfl

theorem neverWraps_of_latest (h : g.zipfian.Latest count most kZipfianConst) : g.NeverWraps := by
  intro basis u hitems hu
  obtain ⟨v, z, hzipfian, hnext, hle, -⟩ := next_spec h hitems hu
  have hsub : (basis.last - v).toNat = basis.last.toNat - v.toNat :=
    UInt64.toNat_sub_of_le _ _ hle
  have hnat : v.toNat ≤ basis.last.toNat := UInt64.le_iff_toNat_le.mp hle
  refine ⟨v, z, _, _, hzipfian, hnext, by omega, ?_⟩
  rw [UInt64.le_iff_toNat_le]
  omega

theorem latest_nexts {calls : List (CounterGenerator × ℝ)}
    (h : g.zipfian.Latest count most kZipfianConst)
    (hcalls : ∀ call ∈ calls, Items call.1.last ∧ Draw call.2) :
    ∃ g' most', g.nexts calls = .returned g' ∧ g'.zipfian.Latest count most' kZipfianConst := by
  induction calls generalizing g most with
  | nil => exact ⟨g, most, rfl, h⟩
  | cons call calls ih =>
    obtain ⟨hitems, hdraw⟩ := hcalls call List.mem_cons_self
    obtain ⟨v, z, -, hnext, -, hlatest⟩ := next_spec h hitems hdraw
    obtain ⟨g', most', hg', hlatest'⟩ := ih (g := ⟨z, call.1.last - v⟩) hlatest
      fun c hc => hcalls c (List.mem_cons_of_mem call hc)
    refine ⟨g', most', ?_, hlatest'⟩
    rw [nexts, hnext]
    exact hg'

theorem latest_construct {u' : ℝ} (hitems : Items basis.last) (hu : Draw u) (hu' : Draw u') :
    ∃ g most, construct basis u u' = .returned g ∧
      g.zipfian.Latest basis.last most kZipfianConst := by
  obtain ⟨zipfian, hzipfian, hlatest⟩ :=
    ZipfianGenerator.latest_construct kZipfianConst_pos kZipfianConst_lt_one hitems hu
  obtain ⟨v, z, -, hnext, -, hlatest'⟩ := next_spec (g := ⟨zipfian, 0⟩) hlatest hitems hu'
  refine ⟨⟨z, basis.last - v⟩, _, ?_, hlatest'⟩
  rw [construct, hzipfian]
  simp only [Outcome.returned_bind, hnext]

end SkewedLatestGenerator

open ZipfianGenerator SkewedLatestGenerator

/-- **The latest distribution never underflows.**  For every exponent between 0 and
    1, number of items, history of counts in any order and draws, the zipfian
    generator is `Bounded`; and for every history of counters, `Next` of the latest
    distribution subtracts without wrapping. -/
theorem latest_neverUnderflows {theta : ℝ} (hpos : 0 < theta) (hlt : theta < 1) :
    (∀ numItems u₀ (calls : List (UInt64 × ℝ)), Items numItems → Draw u₀ →
      (∀ call ∈ calls, Items call.1 ∧ Draw call.2) →
      ∃ g, (ZipfianGenerator.construct 0 (numItems - 1) theta u₀ >>= fun g => g.nexts calls) =
          .returned g ∧
        g.Bounded numItems (largest numItems calls) theta) ∧
    ∀ basis u₀ u₁ (calls : List (CounterGenerator × ℝ)), Items basis.last → Draw u₀ → Draw u₁ →
      (∀ call ∈ calls, Items call.1.last ∧ Draw call.2) →
      ∃ g, (SkewedLatestGenerator.construct basis u₀ u₁ >>= fun g => g.nexts calls) =
          .returned g ∧
        g.NeverWraps := by
  constructor
  · intro numItems u₀ calls hitems hu₀ hcalls
    obtain ⟨start, hstart, hlatest⟩ := ZipfianGenerator.latest_construct hpos hlt hitems hu₀
    obtain ⟨g, hg, hlatest'⟩ := ZipfianGenerator.latest_nexts hlatest hcalls
    refine ⟨g, ?_, hlatest'.bounded⟩
    rw [hstart]
    exact hg
  · intro basis u₀ u₁ calls hitems hu₀ hu₁ hcalls
    obtain ⟨start, most, hstart, hlatest⟩ :=
      SkewedLatestGenerator.latest_construct hitems hu₀ hu₁
    obtain ⟨g, most', hg, hlatest'⟩ := SkewedLatestGenerator.latest_nexts hlatest hcalls
    refine ⟨g, ?_, neverWraps_of_latest hlatest'⟩
    rw [hstart]
    exact hg

/-- Three items, then a count of five; and a counter that goes back from 6 to 4. -/
theorem latest_neverUnderflows_three :
    (∃ g, (ZipfianGenerator.construct 0 (3 - 1) kZipfianConst 0 >>=
        fun g => g.nexts [(5, 1 / 2)]) = .returned g ∧
      g.Bounded 3 (largest 3 [(5, 1 / 2)]) kZipfianConst) ∧
    ∃ g, (SkewedLatestGenerator.construct ⟨4⟩ 0 0 >>=
        fun g => g.nexts [(⟨6⟩, 1 / 2), (⟨4⟩, 1 / 2)]) = .returned g ∧
      g.NeverWraps := by
  have hhalf : Draw (1 / 2) := ⟨by norm_num, by norm_num⟩
  obtain ⟨hzipfian, hlatest⟩ := latest_neverUnderflows kZipfianConst_pos kZipfianConst_lt_one
  constructor
  · refine hzipfian 3 0 _ (by decide) draw_zero fun call hcall => ?_
    obtain rfl := List.mem_singleton.mp hcall
    exact ⟨by decide, hhalf⟩
  · refine hlatest ⟨4⟩ 0 0 _ (by decide) draw_zero draw_zero fun call hcall => ?_
    rcases List.mem_cons.mp hcall with rfl | hcall
    · exact ⟨by decide, hhalf⟩
    · obtain rfl := List.mem_singleton.mp hcall
      exact ⟨by decide, hhalf⟩

end NvrecYcsb.Workload
