/-
  NvrecYcsb/KeyChoosers.lean
  ==========================
  **The choosers of transaction keys** (`core/core_workload.{h,cc}`,
  `core/scrambled_zipfian_generator.h`, `core/uniform_generator.h`,
  `core/skewed_latest_generator.h`).

  `NextTransactionKey` draws numbers from `key_chooser_` until one is not above the
  last number of `insert_key_sequence_`.  A uniform draw and a draw of the latest
  distribution never are.  The scrambled zipfian generator hashes a rank into a range
  that is larger than what was loaded, by room for new keys; `insert_key_sequence_`
  does not move, so a number behind it stays out of reach, and when all ranks hash
  there the loop has no end.

  The machine is the one of the transactions, with the draws taken from the chooser.

  * `next_spec`: every draw of a chooser that `Init` has built;
  * `run_spec`: no run fails, and each is a run of the transactions;
  * `nextTransactionKey_iff`: when a client can leave the loop;
  * `starved_tenRecords`: ten records and room for 36 more.
-/
import NvrecYcsb.SkewedLatest
import NvrecYcsb.TransactionKeys

namespace NvrecYcsb.KeyChoosers

open CppRuntime FnvHash Workload ZipfianGenerator TransactionKeys TransactionKeys.State Runs

/-! ### The choosers -/

/-- What the random engines give to a draw: the number of a uniform distribution, and
    the value of `RandomDouble`. -/
structure Random where
  int : UInt64
  real : ℝ

structure ScrambledZipfianGenerator where
  base : UInt64
  numItems : UInt64
  generator : ZipfianGenerator

namespace ScrambledZipfianGenerator

def scramble (g : ScrambledZipfianGenerator) (value : UInt64) : UInt64 :=
  g.base + fnvHash64 value % g.numItems

noncomputable def next (g : ScrambledZipfianGenerator) (u : ℝ) :
    Outcome (UInt64 × ScrambledZipfianGenerator) := do
  let (value, generator) ← g.generator.nextAll u
  .returned (g.scramble value, { g with generator := generator })

/-- The constructor for a number of items: minimum 0 and maximum `num_items - 1`. -/
noncomputable def construct (numItems : UInt64) (u : ℝ) : Outcome ScrambledZipfianGenerator := do
  let generator ← ZipfianGenerator.construct 0 (numItems - 1) kZipfianConst u
  .returned { base := 0, numItems := numItems - 1 - 0 + 1, generator := generator }

end ScrambledZipfianGenerator

/-- What `key_chooser_` points to. -/
inductive KeyChooser
  | uniform (min max : UInt64)
  | scrambledZipfian (g : ScrambledZipfianGenerator)
  | skewedLatest (g : SkewedLatestGenerator)

variable {D : DoubleArith}

namespace KeyChooser

/-- The generator that `Init` makes `key_chooser_`, with the draws of its constructor.
    No other generator is one. -/
noncomputable def construct (wl : CoreWorkload D) (r r' : Random) : Outcome KeyChooser :=
  match wl.keyChooser with
  | .uniform min max => .returned (.uniform min max)
  | .scrambledZipfian numItems => do
    let g ← ScrambledZipfianGenerator.construct numItems r.real
    .returned (.scrambledZipfian g)
  | .skewedLatest => do
    let g ← SkewedLatestGenerator.construct wl.insertKeySequence r.real r'.real
    .returned (.skewedLatest g)
  | .constant _ => .undefined
  | .zipfian _ _ => .undefined

/-- `key_chooser_->Next()`; the latest distribution reads the counter. -/
noncomputable def next (c : KeyChooser) (basis : CounterGenerator) (r : Random) :
    Outcome (UInt64 × KeyChooser) :=
  match c with
  | .uniform min max => .returned (r.int, .uniform min max)
  | .scrambledZipfian g => do
    let (value, g) ← g.next r.real
    .returned (value, .scrambledZipfian g)
  | .skewedLatest g => do
    let (value, g) ← g.next basis r.real
    .returned (value, .skewedLatest g)

end KeyChooser

/-- The engines keep to their distributions. -/
def Random.Ok (wl : CoreWorkload D) (r : Random) : Prop :=
  Draw r.real ∧ ∀ min max, wl.keyChooser = .uniform min max → min ≤ r.int ∧ r.int ≤ max

/-- A number that the zipfian generator for `numItems` items gives. -/
def Rank (numItems v : UInt64) : Prop :=
  ∃ u g, Draw u ∧ nextAfter 0 (numItems - 1) kZipfianConst 0 [] u = .returned (v, g)

/-- Every rank of the zipfian generator is hashed behind the last number of the request
    range. -/
def Starved (wl : CoreWorkload D) : Prop :=
  ∃ numItems, wl.keyChooser = .scrambledZipfian numItems ∧
    ∀ v, Rank numItems v → wl.insertKeySequence.last < fnvHash64 v % numItems

/-! ### The zipfian generator has no memory -/

section Memory

variable {numItems : UInt64} {θ : ℝ}

/-- A generator that only `Next()` has been called on is the one that was built, up to
    the value it remembers. -/
theorem built_unique {g g' : ZipfianGenerator} (h : g.Built 0 numItems θ)
    (h' : g'.Built 0 numItems θ) : g' = { g with lastValue := g'.lastValue } := by
  have hzeta : g'.zetaN = g.zetaN := by
    rw [h.sound.zetaN, h'.sound.zetaN, h.theta, h'.theta, h.nForZeta, h'.nForZeta]
  have hzeta2 : g'.zeta2 = g.zeta2 := by
    rw [h.sound.zeta2, h'.sound.zeta2, h.theta, h'.theta]
  have halpha : g'.alpha = g.alpha := by rw [h.sound.alpha, h'.sound.alpha, h.theta, h'.theta]
  have heta : g'.eta = g.eta := by
    rw [h.sound.eta, h'.sound.eta, computeEta, computeEta, h.numItems, h'.numItems, h.theta,
      h'.theta, hzeta, hzeta2]
  have hitems := h'.numItems.trans h.numItems.symm
  have hbase := h'.base.trans h.base.symm
  have htheta := h'.theta.trans h.theta.symm
  have hcount := h'.nForZeta.trans h.nForZeta.symm
  cases g
  cases g'
  simp_all

theorem items_sub_add (numItems : UInt64) : numItems - 1 - 0 + 1 = numItems := by
  rw [UInt64.sub_zero, UInt64.sub_add_cancel]

theorem zero_add_items_le (numItems : UInt64) :
    (0 : UInt64).toNat + numItems.toNat ≤ 2 ^ 64 := by
  have hlt := numItems.toNat_lt
  have hzero : (0 : UInt64).toNat = 0 := rfl
  omega

theorem nextAll_of_built {g : ZipfianGenerator} (h : g.Built 0 numItems θ)
    (hitems : Items numItems) (u : ℝ) :
    g.nextAll u = (g.pick numItems u >>= fun value =>
      .returned (value, { g with lastValue := value })) := by
  have hgrow : g.grow numItems = .returned g := by
    rw [grow, h.nForZeta]
    exact if_neg (UInt64.lt_irrefl _)
  have hassert : 2 ≤ numItems ∧ numItems < kMaxNumItems := hitems
  have hall : g.nextAll u = g.next numItems u := by rw [nextAll, h.numItems]
  rw [hall, next, if_pos hassert, hgrow, Outcome.returned_bind]

/-- The number drawn depends on the draw only. -/
theorem nextAll_value {g g' : ZipfianGenerator} (h : g.Built 0 numItems θ)
    (h' : g'.Built 0 numItems θ) (hitems : Items numItems) {u : ℝ} {v : UInt64}
    (hnext : g.nextAll u = .returned (v, { g with lastValue := v })) :
    g'.nextAll u = .returned (v, { g' with lastValue := v }) := by
  have hpick : g.pick numItems u = .returned v := by
    rw [nextAll_of_built h hitems] at hnext
    obtain ⟨w, hw, heq⟩ := Outcome.bind_eq_returned.mp hnext
    obtain ⟨rfl, -⟩ := Prod.mk.inj (Outcome.returned.inj heq)
    exact hw
  have hsame : g'.pick numItems u = g.pick numItems u := by
    rw [built_unique h h']
    rfl
  rw [nextAll_of_built h' hitems, hsame, hpick]
  rfl

theorem built_start (hitems : Items numItems) {u : ℝ} (hu : Draw u) :
    ∃ g, ZipfianGenerator.construct 0 (numItems - 1) kZipfianConst u = .returned g ∧
      g.Built 0 numItems kZipfianConst := by
  have hsub := items_sub_add numItems
  have hroom : (0 : UInt64).toNat + (numItems - 1 - 0 + 1).toNat ≤ 2 ^ 64 := by
    rw [hsub]
    exact zero_add_items_le numItems
  obtain ⟨g, hg, hbuilt⟩ :=
    built_construct kZipfianConst_pos kZipfianConst_lt_one (by rwa [hsub]) hroom hu
  rw [hsub] at hbuilt
  exact ⟨g, hg, hbuilt⟩

/-- **A draw gives a rank of the generator**, whatever was drawn before, and leaves the
    generator as it was built. -/
theorem nextAll_rank {g : ZipfianGenerator} (h : g.Built 0 numItems kZipfianConst)
    (hitems : Items numItems) {u : ℝ} (hu : Draw u) :
    ∃ v g', g.nextAll u = .returned (v, g') ∧ g'.Built 0 numItems kZipfianConst ∧
      Rank numItems v := by
  obtain ⟨v, -, hnext⟩ := nextAll_spec h hitems (zero_add_items_le numItems) hu
  obtain ⟨start, hstart, hbuilt⟩ := built_start hitems draw_zero
  refine ⟨v, _, hnext, h.setLastValue v, u, { start with lastValue := v }, hu, ?_⟩
  rw [nextAfter, hstart]
  exact nextAll_value h hbuilt hitems hnext

/-- Every rank can be the next one. -/
theorem rank_nextAll {g : ZipfianGenerator} (h : g.Built 0 numItems kZipfianConst)
    (hitems : Items numItems) {v : UInt64} (hv : Rank numItems v) :
    ∃ u g', Draw u ∧ g.nextAll u = .returned (v, g') ∧ g'.Built 0 numItems kZipfianConst := by
  obtain ⟨u, last, hu, hafter⟩ := hv
  obtain ⟨start, hstart, hbuilt⟩ := built_start hitems draw_zero
  obtain ⟨w, -, hnext⟩ := nextAll_spec hbuilt hitems (zero_add_items_le numItems) hu
  rw [nextAfter, hstart] at hafter
  change start.nextAll u = _ at hafter
  rw [hnext] at hafter
  obtain ⟨rfl, -⟩ := Prod.mk.inj (Outcome.returned.inj hafter)
  exact ⟨u, _, hu, nextAll_value hbuilt h hitems hnext, h.setLastValue w⟩

/-- The ranks are below the number of items. -/
theorem rank_lt (hitems : Items numItems) {v : UInt64} (hv : Rank numItems v) : v < numItems := by
  obtain ⟨u, last, hu, hafter⟩ := hv
  have hsub := items_sub_add numItems
  have hitems' : Items (numItems - 1 - 0 + 1) := by rwa [hsub]
  have hroom : (0 : UInt64).toNat + (numItems - 1 - 0 + 1).toNat ≤ 2 ^ 64 := by
    rw [hsub]
    exact zero_add_items_le numItems
  obtain ⟨g, w, hbuilt, hpicked, hnext⟩ := nextAfter_spec kZipfianConst_pos kZipfianConst_lt_one
    hitems' hroom draw_zero (List.forall_mem_nil Draw) hu
  rw [hafter] at hnext
  obtain ⟨rfl, -⟩ := Prod.mk.inj (Outcome.returned.inj hnext)
  -- with the minimum 0 the constants of the first two branches are in the range as well
  have hle := ((hpicked.range_iff hbuilt UInt64.zero_le hitems' hu).mpr (Or.inl rfl)).2
  have htwo : 2 ≤ numItems.toNat := UInt64.le_iff_toNat_le.mp hitems.1
  have hone : (numItems - 1).toNat = numItems.toNat - 1 :=
    UInt64.toNat_sub_of_le _ _ (UInt64.le_iff_toNat_le.mpr (by
      show 1 ≤ numItems.toNat
      omega))
  rw [UInt64.le_iff_toNat_le, hone] at hle
  rw [UInt64.lt_iff_toNat_lt]
  omega

end Memory

/-! ### The choosers that Init builds -/

section Choosers

variable {p : Properties} {wl : CoreWorkload D} {recordCount insertStart : Int}

/-- The generators that an accepted `Init` can make `key_chooser_`. -/
theorem keyChooser_cases (h : Configured D p wl recordCount insertStart) :
    wl.keyChooser = .uniform 0 wl.insertKeySequence.last ∨
      (∃ numItems, wl.keyChooser = .scrambledZipfian numItems ∧ Items numItems) ∨
      (wl.keyChooser = .skewedLatest ∧ Items wl.insertKeySequence.last) := by
  obtain ⟨hinit, -, -⟩ := h
  simp only [init, Outcome.bind_eq_returned] at hinit
  obtain ⟨_, -, _, -, _, -, _, -, insertProportion, -, _, -, _, -, records, -, _, -, _, -, _, -,
    _, -, generator, hgenerator, _, -, _, -, hwl⟩ := hinit
  obtain rfl := Outcome.returned.inj hwl
  show generator = _ ∨ _
  have hzipfian : ∀ {min max : UInt64} {made : Generator},
      zipfianGenerator min max = .returned made → Items (max - min + 1) := by
    intro min max made hmade
    by_contra hrejected
    have haborted : zipfianGenerator min max = .aborted := if_neg hrejected
    rw [haborted] at hmade
    cases hmade
  rw [requestGenerator] at hgenerator
  split at hgenerator
  · have huniform : uniformGenerator 0 (UInt64.ofInt records - 1) =
        .returned (.uniform 0 (UInt64.ofInt records - 1)) := if_pos UInt64.zero_le
    rw [huniform] at hgenerator
    obtain rfl := Outcome.returned.inj hgenerator
    exact Or.inl rfl
  · split at hgenerator
    · obtain ⟨opCount, -, hscrambled⟩ := Outcome.bind_eq_returned.mp hgenerator
      obtain ⟨made, hmade, hreturned⟩ := Outcome.bind_eq_returned.mp hscrambled
      obtain rfl := Outcome.returned.inj hreturned
      have hitems := hzipfian hmade
      rw [items_sub_add] at hitems
      exact Or.inr (Or.inl ⟨_, rfl, hitems⟩)
    · split at hgenerator
      · obtain ⟨made, hmade, hreturned⟩ := Outcome.bind_eq_returned.mp hgenerator
        obtain rfl := Outcome.returned.inj hreturned
        have hitems := hzipfian hmade
        rw [items_sub_add] at hitems
        exact Or.inr (Or.inr ⟨rfl, hitems⟩)
      · cases hgenerator

/-- A chooser of the workload, after any draws. -/
inductive Ready (wl : CoreWorkload D) : KeyChooser → Prop
  | uniform (hmade : wl.keyChooser = .uniform 0 wl.insertKeySequence.last) :
      Ready wl (.uniform 0 wl.insertKeySequence.last)
  | scrambledZipfian (numItems : UInt64) (hmade : wl.keyChooser = .scrambledZipfian numItems)
      (hitems : Items numItems) (g : ZipfianGenerator)
      (hbuilt : g.Built 0 numItems kZipfianConst) :
      Ready wl (.scrambledZipfian ⟨0, numItems, g⟩)
  | skewedLatest (hmade : wl.keyChooser = .skewedLatest)
      (hitems : Items wl.insertKeySequence.last) (g : SkewedLatestGenerator) (most : UInt64)
      (hlatest : g.zipfian.Latest wl.insertKeySequence.last most kZipfianConst) :
      Ready wl (.skewedLatest g)

/-- Whatever the first draws, the constructor succeeds. -/
theorem ready_construct (h : Configured D p wl recordCount insertStart) {r r' : Random}
    (hr : r.Ok wl) (hr' : r'.Ok wl) :
    ∃ c, KeyChooser.construct wl r r' = .returned c ∧ Ready wl c := by
  rcases keyChooser_cases h with hmade | ⟨numItems, hmade, hitems⟩ | ⟨hmade, hitems⟩
  · refine ⟨.uniform 0 wl.insertKeySequence.last, ?_, .uniform hmade⟩
    rw [KeyChooser.construct, hmade]
  · obtain ⟨g, hg, hbuilt⟩ := built_start hitems hr.1
    refine ⟨.scrambledZipfian ⟨0, numItems, g⟩, ?_, .scrambledZipfian numItems hmade hitems g hbuilt⟩
    rw [KeyChooser.construct, hmade]
    simp only [ScrambledZipfianGenerator.construct, hg, Outcome.returned_bind, items_sub_add]
  · obtain ⟨g, most, hg, hlatest⟩ := SkewedLatestGenerator.latest_construct hitems hr.1 hr'.1
    refine ⟨.skewedLatest g, ?_, .skewedLatest hmade hitems g most hlatest⟩
    rw [KeyChooser.construct, hmade]
    simp only [hg, Outcome.returned_bind]

/-- The number can be drawn: the hash of a rank, or one of the request range. -/
def Drawable (wl : CoreWorkload D) (v : UInt64) : Prop :=
  match wl.keyChooser with
  | .scrambledZipfian numItems => ∃ rank, Rank numItems rank ∧ v = fnvHash64 rank % numItems
  | _ => v ≤ wl.insertKeySequence.last

/-- **Every draw.**  The chooser gives a number, and can go on. -/
theorem next_spec {c : KeyChooser} (hc : Ready wl c) {r : Random} (hr : r.Ok wl) :
    ∃ v c', c.next wl.insertKeySequence r = .returned (v, c') ∧ Ready wl c' ∧ Drawable wl v := by
  cases hc with
  | uniform hmade =>
    refine ⟨r.int, _, rfl, .uniform hmade, ?_⟩
    rw [Drawable, hmade]
    exact (hr.2 _ _ hmade).2
  | scrambledZipfian numItems hmade hitems g hbuilt =>
    obtain ⟨v, g', hnext, hbuilt', hrank⟩ := nextAll_rank hbuilt hitems hr.1
    refine ⟨fnvHash64 v % numItems, .scrambledZipfian ⟨0, numItems, g'⟩, ?_,
      .scrambledZipfian numItems hmade hitems g' hbuilt', ?_⟩
    · simp only [KeyChooser.next, ScrambledZipfianGenerator.next, hnext, Outcome.returned_bind,
        ScrambledZipfianGenerator.scramble, UInt64.zero_add]
    · rw [Drawable, hmade]
      exact ⟨v, hrank, rfl⟩
  | skewedLatest hmade hitems g most hlatest =>
    obtain ⟨v, z, -, hnext, hle, hlatest'⟩ := SkewedLatestGenerator.next_spec hlatest hitems hr.1
    refine ⟨wl.insertKeySequence.last - v, .skewedLatest ⟨z, wl.insertKeySequence.last - v⟩, ?_,
      .skewedLatest hmade hitems _ _ hlatest', ?_⟩
    · simp only [KeyChooser.next, hnext, Outcome.returned_bind]
    · rw [Drawable, hmade]
      show wl.insertKeySequence.last - v ≤ wl.insertKeySequence.last
      rw [UInt64.le_iff_toNat_le, UInt64.toNat_sub_of_le _ _ hle]
      omega

/-- **A number of the request range can be drawn next**, unless the workload is
    starved. -/
theorem exists_next_le (hnot : ¬Starved wl) {c : KeyChooser} (hc : Ready wl c) :
    ∃ r v c', r.Ok wl ∧ c.next wl.insertKeySequence r = .returned (v, c') ∧
      v ≤ wl.insertKeySequence.last := by
  have hzero : ∀ min max, wl.keyChooser = .uniform min max → min = 0 →
      min ≤ (0 : UInt64) ∧ (0 : UInt64) ≤ max := by
    rintro min max - rfl
    exact ⟨UInt64.le_refl _, UInt64.zero_le⟩
  cases hc with
  | uniform hmade =>
    refine ⟨⟨0, 0⟩, 0, _, ⟨draw_zero, ?_⟩, rfl, UInt64.zero_le⟩
    intro min max hmade'
    have heq := Generator.uniform.inj (hmade.symm.trans hmade')
    exact hzero min max hmade' heq.1.symm
  | scrambledZipfian numItems hmade hitems g hbuilt =>
    obtain ⟨rank, hrank, hle⟩ : ∃ rank, Rank numItems rank ∧
        fnvHash64 rank % numItems ≤ wl.insertKeySequence.last := by
      by_contra hnone
      refine hnot ⟨numItems, hmade, fun v hv => ?_⟩
      exact UInt64.not_le.mp fun hle => hnone ⟨v, hv, hle⟩
    obtain ⟨u, g', hu, hnext, -⟩ := rank_nextAll hbuilt hitems hrank
    refine ⟨⟨0, u⟩, fnvHash64 rank % numItems, .scrambledZipfian ⟨0, numItems, g'⟩, ⟨hu, ?_⟩, ?_,
      hle⟩
    · intro min max hmade'
      rw [hmade] at hmade'
      cases hmade'
    · simp only [KeyChooser.next, ScrambledZipfianGenerator.next, hnext, Outcome.returned_bind,
        ScrambledZipfianGenerator.scramble, UInt64.zero_add]
  | skewedLatest hmade hitems g most hlatest =>
    have hr : Random.Ok wl ⟨0, 0⟩ := by
      refine ⟨draw_zero, ?_⟩
      intro min max hmade'
      rw [hmade] at hmade'
      cases hmade'
    obtain ⟨v, c', hnext, -, hdrawable⟩ :=
      next_spec (.skewedLatest hmade hitems g most hlatest) hr
    rw [Drawable, hmade] at hdrawable
    exact ⟨⟨0, 0⟩, v, c', hr, hnext, hdrawable⟩

/-- A starved workload accepts no draw. -/
theorem acceptKey_of_starved (h : Starved wl) {v : UInt64} (hv : Drawable wl v) :
    wl.acceptKey v = none := by
  obtain ⟨numItems, hmade, hbehind⟩ := h
  rw [Drawable, hmade] at hv
  obtain ⟨rank, hrank, rfl⟩ := hv
  exact if_pos (hbehind rank hrank)

end Choosers

/-! ### The transactions, with the draws of the chooser -/

structure Machine (D : DoubleArith) where
  keys : State D
  chooser : KeyChooser

inductive Event
  | start (c : Nat) (op : Operation)
  | draw (c : Nat) (r : Random)          -- a turn of the loop of NextTransactionKey
  | finish (c : Nat) (status : Int)

def Event.Ok (wl : CoreWorkload D) : Event → Prop
  | .draw _ r => r.Ok wl
  | _ => True

/-- One step of one of the clients.  The chooser is locked while it draws. -/
noncomputable def step (threads : Nat) (m : Machine D) : Event → Outcome (Machine D)
  | .start c op => .returned { m with keys := TransactionKeys.step threads m.keys (.start c op) }
  | .finish c status =>
    .returned { m with keys := TransactionKeys.step threads m.keys (.finish c status) }
  | .draw c r =>
    match m.keys.clients c with
    | .choosing _ => do
      let (keyNum, chooser) ← m.chooser.next m.keys.workload.insertKeySequence r
      .returned ⟨TransactionKeys.step threads m.keys (.draw c keyNum), chooser⟩
    | _ => .returned m

noncomputable def runFrom (threads : Nat) (m : Machine D) : List Event → Outcome (Machine D)
  | [] => .returned m
  | e :: es => do
    let m ← step threads m e
    runFrom threads m es

/-- The load, and the transactions after it; `r` and `r'` are the draws of the
    constructor of `key_chooser_`. -/
noncomputable def transactions (wl : CoreWorkload D) (threads : Nat) (order : List Nat)
    (r r' : Random) (es : List Event) : Outcome (Machine D) := do
  let chooser ← KeyChooser.construct wl r r'
  runFrom threads ⟨loaded wl order, chooser⟩ es

section Machines

variable {p : Properties} {wl : CoreWorkload D} {recordCount insertStart : Int} {threads : Nat}

/-- What every step keeps: the clients are where steps of the transactions lead, and the
    chooser can go on. -/
structure Going (wl : CoreWorkload D) (threads : Nat) (order : List Nat) (m : Machine D) :
    Prop where
  keys : Inv wl order.length m.keys
  chooser : Ready wl m.chooser
  refines : ∃ actions, m.keys = run (TransactionKeys.step threads) (loaded wl order) actions
  starved : Starved wl → ∀ c op key, m.keys.clients c ≠ .requesting op key

theorem Going.keySequence {order : List Nat} {m : Machine D} (h : Going wl threads order m) :
    m.keys.workload.insertKeySequence = wl.insertKeySequence := by
  rw [h.keys.drawn.workload]
  rfl

theorem Going.acceptKey {order : List Nat} {m : Machine D} (h : Going wl threads order m)
    (v : UInt64) : m.keys.workload.acceptKey v = wl.acceptKey v := by
  rw [h.keys.drawn.workload]
  rfl

/-- A client that has moved requests a key when it is sent to request one. -/
theorem requesting_setClient {s : State D} {client c : Nat} {pc : ClientPc} {op : Operation}
    {key : Str} (h : (s.setClient client pc).clients c = .requesting op key) :
    s.clients c = .requesting op key ∨ pc = .requesting op key := by
  change Function.update s.clients client pc c = _ at h
  by_cases hc : c = client
  · subst hc
    rw [Function.update_self] at h
    exact Or.inr h
  · rw [Function.update_of_ne hc] at h
    exact Or.inl h

/-- A step of the transactions whose draw the chooser can give. -/
theorem Going.moved {order : List Nat} {m : Machine D} (h : Going wl threads order m) (a : Action)
    {c : KeyChooser} (hc : Ready wl c)
    (hdraw : ∀ client v, a = .draw client v → Drawable wl v) :
    Going wl threads order ⟨TransactionKeys.step threads m.keys a, c⟩ := by
  refine ⟨inv_step h.keys a, hc, ?_, ?_⟩
  · obtain ⟨actions, hactions⟩ := h.refines
    refine ⟨actions ++ [a], ?_⟩
    rw [run_append, ← hactions]
    rfl
  · intro hstarved
    have hnone := h.starved hstarved
    have hmoved := step_moved threads m.keys a
    intro client op key hrequesting
    change (TransactionKeys.step threads m.keys a).clients client = _ at hrequesting
    generalize TransactionKeys.step threads m.keys a = s' at hmoved hrequesting
    -- only an accepted draw makes a client request a key
    cases hmoved with
    | stay => exact hnone client op key hrequesting
    | insert c =>
      rcases requesting_setClient hrequesting with hold | hpc
      · exact hnone client op key hold
      · cases hpc
    | choose c op' hop hne =>
      rcases requesting_setClient hrequesting with hold | hpc
      · exact hnone client op key hold
      · cases hpc
    | accept c v op' key' hpc hkey =>
      rw [h.acceptKey, acceptKey_of_starved hstarved (hdraw c v rfl)] at hkey
      cases hkey
    | done c status op' key' hpc => exact hnone c op' key' hpc
    | inserted c status index v hpc =>
      rcases requesting_setClient hrequesting with hold | hpc
      · exact hnone client op key hold
      · cases hpc

/-- **One step.** -/
theorem step_spec {order : List Nat} {m : Machine D} (h : Going wl threads order m) {e : Event}
    (he : e.Ok wl) : ∃ m', step threads m e = .returned m' ∧ Going wl threads order m' := by
  cases e with
  | start c op =>
    refine ⟨_, rfl, h.moved (.start c op) h.chooser ?_⟩
    rintro client v ⟨⟩
  | finish c status =>
    refine ⟨_, rfl, h.moved (.finish c status) h.chooser ?_⟩
    rintro client v ⟨⟩
  | draw c r =>
    rw [step]
    cases hpc : m.keys.clients c with
    | choosing op =>
      obtain ⟨v, chooser, hnext, hready, hdrawable⟩ := next_spec h.chooser he
      simp only [h.keySequence, hnext, Outcome.returned_bind]
      refine ⟨_, rfl, h.moved (.draw c v) hready ?_⟩
      rintro client w ⟨⟩
      exact hdrawable
    | idle => exact ⟨m, rfl, h⟩
    | requesting op key => exact ⟨m, rfl, h⟩
    | inserting index v => exact ⟨m, rfl, h⟩

/-- **No run fails.** -/
theorem run_spec {order : List Nat} {m : Machine D} (h : Going wl threads order m)
    {es : List Event} (hes : ∀ e ∈ es, e.Ok wl) :
    ∃ m', runFrom threads m es = .returned m' ∧ Going wl threads order m' := by
  induction es generalizing m with
  | nil => exact ⟨m, rfl, h⟩
  | cons e es ih =>
    obtain ⟨next, hstep, hnext⟩ := step_spec h (hes e List.mem_cons_self)
    obtain ⟨m', hrun, hm'⟩ := ih hnext fun e he => hes e (List.mem_cons_of_mem _ he)
    refine ⟨m', ?_, hm'⟩
    rw [runFrom, hstep]
    exact hrun

theorem going_loaded (wl : CoreWorkload D) (threads : Nat) (order : List Nat) {c : KeyChooser}
    (hc : Ready wl c) : Going wl threads order ⟨loaded wl order, c⟩ :=
  ⟨inv_loaded wl order, hc, ⟨[], rfl⟩, fun _ c op key hrequesting => by
    rw [(loaded_idle wl order).1 c] at hrequesting
    cases hrequesting⟩

/-- An accepted draw takes the client out of the loop. -/
theorem step_draw_of_le {order : List Nat} {m : Machine D} (h : Going wl threads order m) {c : Nat}
    {op : Operation} (hpc : m.keys.clients c = .choosing op) {r : Random} {v : UInt64}
    {chooser : KeyChooser} (hnext : m.chooser.next wl.insertKeySequence r = .returned (v, chooser))
    (hle : v ≤ wl.insertKeySequence.last) :
    ∃ m', step threads m (.draw c r) = .returned m' ∧
      m'.keys.clients c = .requesting op (wl.buildKeyName v) := by
  have haccept : m.keys.workload.acceptKey v = some (wl.buildKeyName v) := by
    rw [h.acceptKey]
    exact CoreWorkload.acceptKey_of_le hle
  refine ⟨⟨TransactionKeys.step threads m.keys (.draw c v), chooser⟩, ?_, ?_⟩
  · simp only [step, hpc, h.keySequence, hnext, Outcome.returned_bind]
  · simp only [TransactionKeys.step, hpc, haccept]
    simp [setClient]

/-- **When `NextTransactionKey` can return.**  For every accepted configuration, load and
    interleaving of the clients, and all draws of the random engines, the run does not fail
    and is one of the transactions.  Wherever it has led, a client that is in the loop has a
    way out exactly when not every rank of a zipfian `key_chooser_` hashes behind the
    records that were loaded; otherwise nothing that it or the other clients do, the
    inserts included, ever gives it a key. -/
theorem nextTransactionKey_iff (h : Configured D p wl recordCount insertStart) (threads : Nat)
    (order : List Nat) {r r' : Random} (hr : r.Ok wl) (hr' : r'.Ok wl) {es : List Event}
    (hes : ∀ e ∈ es, e.Ok wl) :
    ∃ m, transactions wl threads order r r' es = .returned m ∧
      (∃ actions, m.keys = run (TransactionKeys.step threads) (loaded wl order) actions) ∧
      ∀ c op, m.keys.clients c = .choosing op →
        ((∃ more m' key, (∀ e ∈ more, Event.Ok wl e) ∧ runFrom threads m more = .returned m' ∧
            m'.keys.clients c = .requesting op key) ↔ ¬Starved wl) := by
  obtain ⟨chooser, hconstruct, hready⟩ := ready_construct h hr hr'
  obtain ⟨m, hm, hgoing⟩ := run_spec (going_loaded wl threads order hready) hes
  refine ⟨m, ?_, hgoing.refines, ?_⟩
  · rw [transactions, hconstruct]
    exact hm
  · intro c op hpc
    constructor
    · rintro ⟨more, m', key, hmore, hrun, hrequesting⟩ hstarved
      obtain ⟨last, hlast, hgoing'⟩ := run_spec hgoing hmore
      rw [hrun] at hlast
      obtain rfl := Outcome.returned.inj hlast
      exact hgoing'.starved hstarved c op key hrequesting
    · intro hnot
      obtain ⟨random, v, chooser', hok, hnext, hle⟩ := exists_next_le hnot hgoing.chooser
      obtain ⟨m', hstep, hrequesting⟩ := step_draw_of_le hgoing hpc hnext hle
      refine ⟨[.draw c random], m', wl.buildKeyName v, ?_, ?_, hrequesting⟩
      · intro e he
        obtain rfl := List.mem_singleton.mp he
        exact hok
      · rw [runFrom, hstep]
        rfl

end Machines

/-! ### Ten records -/

/-- Proportions in hundredths. -/
def centArith : DoubleArith where
  Double := Int
  stod s := stoi (s.filter (· ≠ 46))
  isPositive proportion := 0 < proportion
  newKeys opCount proportion := (opCount * proportion * 2).tdiv 100

/-- Half of 36 operations insert into ten records, and the others read. -/
def tenRecords : Properties := fun key =>
  if key = recordCountProperty then some (str "10")
  else if key = operationCountProperty then some (str "36")
  else if key = readProportionProperty then some (str "0.50")
  else if key = updateProportionProperty then some (str "0.00")
  else if key = insertProportionProperty then some (str "0.50")
  else if key = scanProportionProperty then some (str "0.00")
  else if key = readModifyWriteProportionProperty then some (str "0.00")
  else if key = requestDistributionProperty then some (str "zipfian")
  else none

def tenRecordsWorkload : CoreWorkload centArith where
  tableName := str "usertable"
  fieldCount := 10
  readAllFields := true
  writeAllFields := false
  fieldLenGenerator := .constant 100
  keyGenerator := ⟨0⟩
  opChooser := [(.read, (50 : Int)), (.insert, (50 : Int))]
  keyChooser := .scrambledZipfian 46
  fieldChooser := .uniform 0 9
  scanLenChooser := .uniform 1 1000
  insertKeySequence := ⟨10⟩
  orderedInserts := false
  recordCount := 10

theorem configured_tenRecords : Configured centArith tenRecords tenRecordsWorkload 10 0 :=
  ⟨rfl, rfl, rfl⟩

/-- All 46 ranks are hashed to numbers from 10 on. -/
theorem starved_tenRecords : Starved tenRecordsWorkload := by
  have hbehind : ∀ v < 46, 9 < (fnvHash64 (.ofNat v) % 46) := by decide +kernel
  refine ⟨46, rfl, fun v hv => ?_⟩
  have hlt := UInt64.lt_iff_toNat_lt.mp (rank_lt (by decide) hv)
  have h := hbehind v.toNat hlt
  rw [UInt64.ofNat_toNat] at h
  exact h

/-- The client that starts to read never gets a key. -/
theorem nextTransactionKey_iff_tenRecords :
    ∃ m, transactions tenRecordsWorkload 1 (List.replicate 10 0) ⟨0, 0⟩ ⟨0, 0⟩
        [.start 0 .read] = .returned m ∧ m.keys.clients 0 = .choosing .read ∧
      ¬∃ more m' key, (∀ e ∈ more, Event.Ok tenRecordsWorkload e) ∧
        runFrom 1 m more = .returned m' ∧ m'.keys.clients 0 = .requesting .read key := by
  have hr : Random.Ok tenRecordsWorkload ⟨0, 0⟩ := by
    refine ⟨draw_zero, ?_⟩
    rintro min max ⟨⟩
  have hes : ∀ e ∈ [Event.start 0 .read], e.Ok tenRecordsWorkload := by
    intro e he
    obtain rfl := List.mem_singleton.mp he
    trivial
  obtain ⟨m, hm, -, hiff⟩ :=
    nextTransactionKey_iff configured_tenRecords 1 (List.replicate 10 0) hr hr hes
  have hpc : m.keys.clients 0 = .choosing .read := by
    obtain ⟨chooser, hconstruct, -⟩ := ready_construct configured_tenRecords hr hr
    have hrun : transactions tenRecordsWorkload 1 (List.replicate 10 0) ⟨0, 0⟩ ⟨0, 0⟩
        [.start 0 .read] = .returned
          ⟨TransactionKeys.step 1 (loaded tenRecordsWorkload (List.replicate 10 0)) (.start 0 .read),
            chooser⟩ := by
      rw [transactions, hconstruct]
      rfl
    rw [hrun] at hm
    obtain rfl := Outcome.returned.inj hm
    rfl
  exact ⟨m, hm, hpc, fun hmore => (hiff 0 .read hpc).mp hmore starved_tenRecords⟩

end NvrecYcsb.KeyChoosers
