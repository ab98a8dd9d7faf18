/-
  NvrecYcsb/DiscreteGenerator.lean
  ================================
  **Drawing an operation by its weight** (`core/discrete_generator.h`), over
  exact rationals.

  `Next` draws a chooser between 0 and 1 and takes the normalised weights off it,
  one after another, until what is left is smaller than the next one.  The chooser
  is an input.  An iterator of `values_` is the list of the values from it on.

  * `find_eq`: the loop stops at the share the chooser lies in;
  * `next_follows_weights`: what `Next` returns, for every chooser;
  * `nextOperation_spec`: the operations of a workload after an accepted `Init`.
-/
import NvrecYcsb.CoreWorkload
import NvrecYcsb.CumulativeShares
import Mathlib.Algebra.Order.Field.Rat

namespace NvrecYcsb.Workload

open CppRuntime CumulativeShares

/-- `DiscreteGenerator`; `last_` is not set before the first value is added. -/
structure DiscreteGenerator (Value : Type) where
  values : List (Value × ℚ) := []
  sum : ℚ := 0
  last : Option Value := none

namespace DiscreteGenerator

variable {Value : Type}

/-- `AddValue`. -/
def addValue (g : DiscreteGenerator Value) (value : Value) (weight : ℚ) :
    DiscreteGenerator Value :=
  { values := g.values ++ [(value, weight)]
    sum := g.sum + weight
    last := if g.values.isEmpty then some value else g.last }

/-- The loop of `Next`: the iterator at which it returns, `cend()` when it does not. -/
def find (sum : ℚ) : List (Value × ℚ) → ℚ → List (Value × ℚ)
  | [], _ => []
  | p :: values, chooser =>
    if chooser < p.2 / sum then p :: values else find sum values (chooser - p.2 / sum)

/-- `Next`, with the chooser that was drawn. -/
def next (g : DiscreteGenerator Value) (chooser : ℚ) : Outcome Value × DiscreteGenerator Value :=
  match find g.sum g.values chooser with
  | [] => (.aborted, g) -- assert(false)
  | p :: _ => (.returned p.1, { g with last := some p.1 })

/-- A generator after a sequence of `AddValue` calls. -/
def addAll (calls : List (Value × ℚ)) : DiscreteGenerator Value :=
  calls.foldl (fun g call => g.addValue call.1 call.2) {}

/-- The chooser lies between the first `i` weights and the first `i + 1`, in parts
    of their sum. -/
def InPart (calls : List (Value × ℚ)) (chooser : ℚ) (i : Nat) : Prop :=
  ((calls.take i).map Prod.snd).sum / (calls.map Prod.snd).sum ≤ chooser ∧
    chooser < ((calls.take (i + 1)).map Prod.snd).sum / (calls.map Prod.snd).sum

/-- `Next` returns in turn `i` of its loop. -/
def ReturnsAt (g : DiscreteGenerator Value) (chooser : ℚ) (i : Nat) : Prop :=
  i < g.values.length ∧ find g.sum g.values chooser = g.values.drop i

/-! ### The loop -/

/-- The weights in parts of their sum. -/
def shares (calls : List (Value × ℚ)) : List ℚ :=
  (calls.map Prod.snd).map (· / (calls.map Prod.snd).sum)

theorem length_shares (calls : List (Value × ℚ)) : (shares calls).length = calls.length := by
  rw [shares, List.length_map, List.length_map]

theorem addAll_spec (calls : List (Value × ℚ)) :
    (addAll calls).values = calls ∧ (addAll calls).sum = (calls.map Prod.snd).sum := by
  have hfold : ∀ (calls : List (Value × ℚ)) (g : DiscreteGenerator Value),
      (calls.foldl (fun g call => g.addValue call.1 call.2) g).values = g.values ++ calls ∧
        (calls.foldl (fun g call => g.addValue call.1 call.2) g).sum =
          g.sum + (calls.map Prod.snd).sum := by
    intro calls
    induction calls with
    | nil => simp
    | cons call calls ih =>
      intro g
      obtain ⟨hvalues, hsum⟩ := ih (g.addValue call.1 call.2)
      constructor
      · rw [List.foldl_cons, hvalues, addValue, List.append_assoc]
        rfl
      · rw [List.foldl_cons, hsum, addValue, List.map_cons, List.sum_cons, add_assoc]
  simpa [addAll] using hfold calls {}

/-- **The loop stops at the share the chooser lies in.** -/
theorem find_eq (sum : ℚ) (values : List (Value × ℚ)) (chooser : ℚ) :
    find sum values chooser = values.drop (stop ((values.map Prod.snd).map (· / sum)) chooser) := by
  induction values generalizing chooser with
  | nil => simp [find]
  | cons p values ih =>
    rw [find, List.map_cons, List.map_cons, stop]
    by_cases h : chooser < p.2 / sum
    · rw [if_pos h, if_pos h, List.drop_zero]
    · rw [if_neg h, if_neg h, ih, List.drop_succ_cons]

theorem find_addAll (calls : List (Value × ℚ)) (chooser : ℚ) :
    find (addAll calls).sum (addAll calls).values chooser =
      calls.drop (stop (shares calls) chooser) := by
  obtain ⟨hvalues, hsum⟩ := addAll_spec calls
  rw [hvalues, hsum, find_eq, shares]

theorem inPart_iff (calls : List (Value × ℚ)) (chooser : ℚ) (i : Nat) :
    InPart calls chooser i ↔ InShare (shares calls) chooser i := by
  rw [InPart, InShare, shares, cutPoint_div, cutPoint_div, cutPoint, cutPoint, List.map_take,
    List.map_take]

/-! ### What `Next` returns -/

section Positive

variable {calls : List (Value × ℚ)} {chooser : ℚ}

theorem sum_pos (hne : calls ≠ []) (hpos : ∀ call ∈ calls, 0 < call.2) :
    0 < (calls.map Prod.snd).sum := by
  apply List.sum_pos
  · intro w hw
    obtain ⟨call, hcall, rfl⟩ := List.mem_map.mp hw
    exact hpos call hcall
  · simpa using hne

theorem shares_nonneg (hpos : ∀ call ∈ calls, 0 < call.2) : ∀ w ∈ shares calls, 0 ≤ w := by
  intro w hw
  obtain ⟨v, hv, rfl⟩ := List.mem_map.mp hw
  obtain ⟨call, hcall, rfl⟩ := List.mem_map.mp hv
  have hne : calls ≠ [] := List.ne_nil_of_mem hcall
  exact (div_pos (hpos call hcall) (sum_pos hne hpos)).le

/-- The whole sum is one. -/
theorem sum_shares (hne : calls ≠ []) (hpos : ∀ call ∈ calls, 0 < call.2) :
    (shares calls).sum = 1 := by
  rw [← cutPoint_length, shares, cutPoint_div, List.length_map, cutPoint_length]
  exact div_self (sum_pos hne hpos).ne'

/-- The loop returns, in the turn of the share that the chooser lies in. -/
theorem stop_lt (hne : calls ≠ []) (hpos : ∀ call ∈ calls, 0 < call.2) (h0 : 0 ≤ chooser)
    (h1 : chooser < 1) : stop (shares calls) chooser < calls.length := by
  rw [← length_shares, stop_lt_length_iff (shares_nonneg hpos) h0, sum_shares hne hpos]
  exact h1

theorem returnsAt_iff (hpos : ∀ call ∈ calls, 0 < call.2) (h0 : 0 ≤ chooser) {i : Nat}
    (hi : i < calls.length) : ReturnsAt (addAll calls) chooser i ↔ InPart calls chooser i := by
  rw [inPart_iff, ← stop_eq_iff (shares_nonneg hpos) h0 (by rwa [length_shares]), ReturnsAt,
    find_addAll, (addAll_spec calls).1]
  constructor
  · rintro ⟨-, hdrop⟩
    have hlen := congrArg List.length hdrop
    rw [List.length_drop, List.length_drop] at hlen
    omega
  · rintro rfl
    exact ⟨hi, rfl⟩

theorem next_of_stop (hlt : stop (shares calls) chooser < calls.length) :
    (addAll calls).next chooser =
      (.returned calls[stop (shares calls) chooser].1,
        { addAll calls with last := some calls[stop (shares calls) chooser].1 }) := by
  rw [next, find_addAll, List.drop_eq_getElem_cons hlt]

end Positive

/-- **`Next` follows the weights.**  Whatever is drawn, it returns; it returns in
    turn `i` exactly when the chooser lies in part `i`, so that a value is returned
    exactly in the parts of its own weights; and `Last` is then that value. -/
theorem next_follows_weights {calls : List (Value × ℚ)} (hne : calls ≠ [])
    (hpos : ∀ call ∈ calls, 0 < call.2) {chooser : ℚ} (h0 : 0 ≤ chooser) (h1 : chooser < 1) :
    (∃ value, ((addAll calls).next chooser).1 = .returned value) ∧
      (∀ i < calls.length, ReturnsAt (addAll calls) chooser i ↔ InPart calls chooser i) ∧
      (∀ value, ((addAll calls).next chooser).1 = .returned value ↔
        ∃ (i : Nat) (hi : i < calls.length), InPart calls chooser i ∧ calls[i].1 = value) ∧
      ∀ value, ((addAll calls).next chooser).1 = .returned value →
        ((addAll calls).next chooser).2.last = some value := by
  have hlt := stop_lt hne hpos h0 h1
  have hnext := next_of_stop hlt
  have hpart : ∀ i < calls.length, InPart calls chooser i ↔ stop (shares calls) chooser = i := by
    intro i hi
    rw [inPart_iff, stop_eq_iff (shares_nonneg hpos) h0 (by rwa [length_shares])]
  refine ⟨⟨_, by rw [hnext]⟩, fun i hi => returnsAt_iff hpos h0 hi, fun value => ?_,
    fun value hvalue => ?_⟩
  · rw [hnext]
    constructor
    · intro h
      exact ⟨_, hlt, (hpart _ hlt).mpr rfl, Outcome.returned.inj h⟩
    · rintro ⟨i, hi, hin, rfl⟩
      obtain rfl := (hpart i hi).mp hin
      rfl
  · rw [hnext] at hvalue ⊢
    rw [Outcome.returned.inj hvalue]

/-- Reads at 95 and updates at 5: a chooser of `0.96` is an update. -/
theorem next_follows_weights_update :
    (∃ value, ((addAll [(Operation.read, 95), (Operation.update, 5)]).next (24 / 25)).1 =
        .returned value) ∧
      (∀ i < 2, ReturnsAt (addAll [(Operation.read, 95), (Operation.update, 5)]) (24 / 25) i ↔
        InPart [(Operation.read, 95), (Operation.update, 5)] (24 / 25) i) ∧
      (∀ value, ((addAll [(Operation.read, 95), (Operation.update, 5)]).next (24 / 25)).1 =
          .returned value ↔
        ∃ (i : Nat) (hi : i < [(Operation.read, (95 : ℚ)), (Operation.update, 5)].length),
          InPart [(Operation.read, 95), (Operation.update, 5)] (24 / 25) i ∧
            [(Operation.read, (95 : ℚ)), (Operation.update, 5)][i].1 = value) ∧
      ∀ value, ((addAll [(Operation.read, 95), (Operation.update, 5)]).next (24 / 25)).1 =
          .returned value →
        ((addAll [(Operation.read, 95), (Operation.update, 5)]).next (24 / 25)).2.last =
          some value :=
  next_follows_weights (by decide) (by decide) (by norm_num) (by norm_num)

end DiscreteGenerator

/-! ### The operations of a workload -/

/-- The arithmetic of `Init` over exact rationals. -/
def exactArith (stod : Str → Outcome ℚ) (newKeys : Int → ℚ → Int) : DoubleArith :=
  { Double := ℚ, stod := stod, isPositive := fun proportion => 0 < proportion, newKeys := newKeys }

variable {stod : Str → Outcome ℚ} {newKeys : Int → ℚ → Int}

/-- `op_chooser_`, as the `AddValue` calls of `Init` leave it. -/
def CoreWorkload.opGenerator (wl : CoreWorkload (exactArith stod newKeys)) :
    DiscreteGenerator Operation :=
  .addAll wl.opChooser

/-- `Init` only adds operations whose proportion is positive. -/
theorem opChooser_pos {p : Properties} {wl : CoreWorkload (exactArith stod newKeys)}
    (h : init (exactArith stod newKeys) p = .returned wl) :
    ∀ call ∈ wl.opChooser, (0 : ℚ) < call.2 := by
  have hadd : ∀ (op : Operation) (proportion : (exactArith stod newKeys).Double)
      (values : List (Operation × (exactArith stod newKeys).Double)),
      (∀ call ∈ values, (0 : ℚ) < call.2) →
      ∀ call ∈ addOperation (exactArith stod newKeys) op proportion values, (0 : ℚ) < call.2 := by
    intro op proportion values hvalues call hcall
    rw [addOperation] at hcall
    by_cases hpos : (exactArith stod newKeys).isPositive proportion = true
    · rw [if_pos hpos] at hcall
      rcases List.mem_append.mp hcall with hold | hnew
      · exact hvalues call hold
      · obtain rfl := List.mem_singleton.mp hnew
        simpa [exactArith] using hpos
    · rw [if_neg hpos] at hcall
      exact hvalues call hcall
  simp only [init, Outcome.bind_eq_returned] at h
  obtain ⟨_, -, _, -, _, -, _, -, _, -, _, -, _, -, _, -, _, -, _, -, _, -, _, -, _, -, _, -,
    _, -, hwl⟩ := h
  obtain rfl := Outcome.returned.inj hwl
  apply hadd
  apply hadd
  apply hadd
  apply hadd
  apply hadd
  simp

/-- **`NextOperation` returns one of the operations of the workload**, for every
    chooser, when `Init` has added any. -/
theorem nextOperation_spec {p : Properties} {wl : CoreWorkload (exactArith stod newKeys)}
    (h : init (exactArith stod newKeys) p = .returned wl) (hne : wl.opChooser ≠ []) {chooser : ℚ}
    (h0 : 0 ≤ chooser) (h1 : chooser < 1) :
    ∃ op ∈ wl.operations, (wl.opGenerator.next chooser).1 = .returned op := by
  have hlt := DiscreteGenerator.stop_lt hne (opChooser_pos h) h0 h1
  refine ⟨_, ?_, by rw [CoreWorkload.opGenerator, DiscreteGenerator.next_of_stop hlt]⟩
  exact List.mem_map_of_mem (List.getElem_mem hlt)

end NvrecYcsb.Workload
