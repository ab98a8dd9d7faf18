/-
  NvrecYcsb/Runs.lean
  ===================
  **Runs of a deterministic machine, and what may be said of all of them.**

  A machine is a step function `σ → ι → σ`: a state, an input, the next state.
  Nondeterminism (device outcomes, scheduling) is carried by the inputs, and an
  input that is not enabled in a state is a step that leaves the state alone,
  so every list of inputs is a run and a statement about all interleavings is a
  statement about all lists.

  * `Throughout`: a property of every state a run passes through;
  * `AllSteps`: a condition on every step of a run, in the state it is taken in;
  * `throughout_of_allSteps`: the invariant rule, the only induction over runs;
  * `throughout_iff_allSteps`: when one step keeps a property exactly under a
    condition, a whole run keeps it exactly when every step meets the condition;
  * `throughout_iff_of_invariant`: the same when the invariant itself needs the
    condition.
-/
import Mathlib.Data.List.Infix
import Mathlib.Tactic.Common

namespace NvrecYcsb.Runs

variable {σ ι : Type*}

/-- The state after the inputs have been taken one at a time. -/
def run (step : σ → ι → σ) : σ → List ι → σ
  | s, [] => s
  | s, i :: is => run step (step s i) is

/-- `Q` holds in every state the run passes through, both ends included. -/
def Throughout (step : σ → ι → σ) (Q : σ → Prop) : σ → List ι → Prop
  | s, [] => Q s
  | s, i :: is => Q s ∧ Throughout step Q (step s i) is

/-- Every step of the run meets `P` in the state in which it is taken. -/
def AllSteps (step : σ → ι → σ) (P : σ → ι → Prop) : σ → List ι → Prop
  | _, [] => True
  | s, i :: is => P s i ∧ AllSteps step P (step s i) is

section Rules

variable {step : σ → ι → σ} {P L : σ → ι → Prop} {Q J : σ → Prop}

@[simp] theorem run_nil (s : σ) : run step s [] = s := rfl

@[simp] theorem run_cons (s : σ) (i : ι) (is : List ι) :
    run step s (i :: is) = run step (step s i) is := rfl

theorem run_append (s : σ) (is js : List ι) :
    run step s (is ++ js) = run step (run step s is) js := by
  induction is generalizing s with
  | nil => rfl
  | cons i is ih => exact ih (step s i)

@[simp] theorem throughout_nil (s : σ) : Throughout step Q s [] ↔ Q s := Iff.rfl

@[simp] theorem throughout_cons (s : σ) (i : ι) (is : List ι) :
    Throughout step Q s (i :: is) ↔ Q s ∧ Throughout step Q (step s i) is := Iff.rfl

@[simp] theorem allSteps_nil (s : σ) : AllSteps step P s [] := trivial

@[simp] theorem allSteps_cons (s : σ) (i : ι) (is : List ι) :
    AllSteps step P s (i :: is) ↔ P s i ∧ AllSteps step P (step s i) is := Iff.rfl

theorem allSteps_append (s : σ) (is js : List ι) :
    AllSteps step P s (is ++ js) ↔
      AllSteps step P s is ∧ AllSteps step P (run step s is) js := by
  induction is generalizing s with
  | nil => simp
  | cons i is ih => simp [ih, and_assoc]

theorem allSteps_const {R : ι → Prop} {s : σ} {is : List ι} :
    AllSteps step (fun _ i => R i) s is ↔ ∀ i ∈ is, R i := by
  induction is generalizing s with
  | nil => simp
  | cons i is ih => simp [ih]

theorem allSteps_and {R : σ → ι → Prop} {s : σ} {is : List ι} :
    AllSteps step (fun s i => P s i ∧ R s i) s is ↔
      AllSteps step P s is ∧ AllSteps step R s is := by
  induction is generalizing s with
  | nil => simp
  | cons i is ih =>
    simp only [allSteps_cons, ih]
    exact and_and_and_comm

theorem Throughout.head {s : σ} {is : List ι} (h : Throughout step Q s is) : Q s := by
  cases is with
  | nil => exact h
  | cons i is => exact h.1

theorem Throughout.last {s : σ} {is : List ι} (h : Throughout step Q s is) :
    Q (run step s is) := by
  induction is generalizing s with
  | nil => exact h
  | cons i is ih => exact ih h.2

theorem Throughout.imp {Q' : σ → Prop} (hQ : ∀ s, Q s → Q' s) {s : σ} {is : List ι}
    (h : Throughout step Q s is) : Throughout step Q' s is := by
  induction is generalizing s with
  | nil => exact hQ s h
  | cons i is ih => exact ⟨hQ s h.1, ih h.2⟩

theorem AllSteps.imp {P' : σ → ι → Prop} (hP : ∀ s i, P s i → P' s i) {s : σ} {is : List ι}
    (h : AllSteps step P s is) : AllSteps step P' s is := by
  induction is generalizing s with
  | nil => trivial
  | cons i is ih => exact ⟨hP s i h.1, ih h.2⟩

/-- **The invariant rule.**  An invariant kept by every step that meets `P`
    holds throughout every run whose steps all meet `P`. -/
theorem throughout_of_allSteps (hstep : ∀ s i, J s → P s i → J (step s i))
    {s : σ} {is : List ι} (hs : J s) (h : AllSteps step P s is) :
    Throughout step J s is := by
  induction is generalizing s with
  | nil => exact hs
  | cons i is ih => exact ⟨hs, ih (hstep s i hs h.1) h.2⟩

/-- **Exact conditions lift from steps to runs.**  Under an invariant `J` and
    an assumption `L` on the inputs, if each step keeps `Q` exactly when it
    meets `P`, then a run that starts in `Q` stays in `Q` exactly when all its
    steps meet `P`. -/
theorem throughout_iff_allSteps (hJ : ∀ s i, J s → L s i → J (step s i))
    (hQ : ∀ s i, J s → Q s → L s i → (Q (step s i) ↔ P s i))
    {s : σ} {is : List ι} (hs : J s) (hq : Q s) (hL : AllSteps step L s is) :
    Throughout step Q s is ↔ AllSteps step P s is := by
  induction is generalizing s with
  | nil => simp [hq]
  | cons i is ih =>
    have hstep := hQ s i hs hq hL.1
    rw [throughout_cons, allSteps_cons]
    constructor
    · rintro ⟨-, hrest⟩
      have hq' : Q (step s i) := hrest.head
      exact ⟨hstep.mp hq', (ih (hJ s i hs hL.1) hq' hL.2).mp hrest⟩
    · rintro ⟨hp, hrest⟩
      have hq' : Q (step s i) := hstep.mpr hp
      exact ⟨hq, (ih (hJ s i hs hL.1) hq' hL.2).mpr hrest⟩

/-- **Exact conditions, when the invariant is lost with the property.**  `J` is
    kept by the steps that meet `P` and implies `Q`; a step that does not meet
    `P` leads from `J` out of `Q`. -/
theorem throughout_iff_of_invariant (hQ : ∀ s, J s → Q s)
    (hJ : ∀ s i, J s → L s i → P s i → J (step s i))
    (hP : ∀ s i, J s → L s i → Q (step s i) → P s i)
    {s : σ} {is : List ι} (hs : J s) (hL : AllSteps step L s is) :
    Throughout step Q s is ↔ AllSteps step P s is := by
  induction is generalizing s with
  | nil => simp [hQ s hs]
  | cons i is ih =>
    rw [throughout_cons, allSteps_cons]
    constructor
    · rintro ⟨-, hrest⟩
      have hp : P s i := hP s i hs hL.1 hrest.head
      exact ⟨hp, (ih (hJ s i hs hL.1 hp) hL.2).mp hrest⟩
    · rintro ⟨hp, hrest⟩
      exact ⟨hQ s hs, (ih (hJ s i hs hL.1 hp) hL.2).mpr hrest⟩

end Rules

instance decidableAllSteps (step : σ → ι → σ) (P : σ → ι → Prop)
    [hP : ∀ s i, Decidable (P s i)] : ∀ s is, Decidable (AllSteps step P s is)
  | _, [] => isTrue trivial
  | s, i :: is =>
    match hP s i, decidableAllSteps step P (step s i) is with
    | isTrue h, isTrue hs => isTrue ⟨h, hs⟩
    | isFalse h, _ => isFalse fun hh => h hh.1
    | _, isFalse hs => isFalse fun hh => hs hh.2

end NvrecYcsb.Runs
