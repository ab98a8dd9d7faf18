/-
  NvrecYcsb/FairRuns.lean
  =======================
  **Endless runs of a deterministic machine, and what they reach.**

  The inputs of a run without end are a sequence, and each input is a step of
  some component of the machine.  A component is enabled where one of its inputs
  moves the state.  A schedule is weakly fair when no component that stays
  enabled for ever is passed over for ever (`WeaklyFair`).

  * `stateAt`: the state after so many inputs, which is a finite run;
  * `followedBy`: a schedule that begins as a given run does;
  * `reaches_of_measure`: a weakly fair run reaches its goal when the steps that
    move the state decrease a measure and, short of the goal, some component
    always moves it.
-/
import NvrecYcsb.Runs
import Mathlib.Data.List.GetD
import Mathlib.Data.Nat.Find
import Mathlib.Order.WellFounded

namespace NvrecYcsb.Runs

variable {σ ι κ : Type*}

/-- The state after the first `n` inputs. -/
def stateAt (step : σ → ι → σ) (s : σ) (inputs : Nat → ι) : Nat → σ
  | 0 => s
  | n + 1 => step (stateAt step s inputs n) (inputs n)

/-- The inputs of a list, and after them those of a sequence from where it is. -/
def followedBy (first : List ι) (rest : Nat → ι) (n : Nat) : ι := first.getD n (rest n)

/-- Component `k` has an input that moves the state. -/
def Enabled (step : σ → ι → σ) (component : ι → κ) (s : σ) (k : κ) : Prop :=
  ∃ i, component i = k ∧ step s i ≠ s

/-- A component that is enabled from some time on takes a step after that time. -/
def WeaklyFair (step : σ → ι → σ) (component : ι → κ) (s : σ) (inputs : Nat → ι) : Prop :=
  ∀ k n, (∀ n' ≥ n, Enabled step component (stateAt step s inputs n') k) →
    ∃ n' ≥ n, component (inputs n') = k

section Rules

variable {step : σ → ι → σ} {component : ι → κ} {s : σ} {inputs : Nat → ι}
  {P : σ → ι → Prop} {J : σ → Prop}

theorem stateAt_eq_run (step : σ → ι → σ) (s : σ) (inputs : Nat → ι) (n : Nat) :
    stateAt step s inputs n = run step s ((List.range n).map inputs) := by
  induction n with
  | zero => rfl
  | succ n ih =>
    rw [List.range_succ, List.map_append, run_append, ← ih]
    rfl

/-- The invariant rule, for runs without end. -/
theorem stateAt_invariant (hstep : ∀ s i, J s → P s i → J (step s i)) (hs : J s)
    (h : ∀ n, P (stateAt step s inputs n) (inputs n)) (n : Nat) : J (stateAt step s inputs n) := by
  induction n with
  | zero => exact hs
  | succ n ih => exact hstep _ _ ih (h n)

/-- A schedule that takes every component again and again is weakly fair. -/
theorem weaklyFair_of_recurrent (h : ∀ k n, ∃ n' ≥ n, component (inputs n') = k) :
    WeaklyFair step component s inputs := fun k n _ => h k n

/-- A sequence stays recurrent behind any list. -/
theorem followedBy_recurrent {rest : Nat → ι} (h : ∀ k n, ∃ n' ≥ n, component (rest n') = k)
    (first : List ι) (k : κ) (n : Nat) : ∃ n' ≥ n, component (followedBy first rest n') = k := by
  obtain ⟨n', hle, hk⟩ := h k (max n first.length)
  have hn : n ≤ n' := le_trans (le_max_left _ _) hle
  have hlength : first.length ≤ n' := le_trans (le_max_right _ _) hle
  exact ⟨n', hn, by rw [followedBy, List.getD_eq_default _ _ hlength, hk]⟩

theorem map_followedBy {first : List ι} {n : Nat} (h : n ≤ first.length) (rest : Nat → ι) :
    (List.range n).map (followedBy first rest) = first.take n := by
  refine List.ext_getElem (by simp [h]) fun m hm _ => ?_
  have hlt : m < first.length := by
    rw [List.length_map, List.length_range] at hm
    omega
  rw [List.getElem_map, List.getElem_range, followedBy, List.getD_eq_getElem _ _ hlt,
    List.getElem_take]

/-- Where the list is a run whose steps meet `P` and every input of the sequence
    meets it, all steps of the schedule do. -/
theorem followedBy_steps {first : List ι} {rest : Nat → ι} (hfirst : AllSteps step P s first)
    (hrest : ∀ s n, P s (rest n)) (n : Nat) :
    P (stateAt step s (followedBy first rest) n) (followedBy first rest n) := by
  rcases Nat.lt_or_ge n first.length with hlt | hge
  · have hsplit : first = first.take n ++ first[n] :: first.drop (n + 1) := by
      rw [List.cons_getElem_drop_succ, List.take_append_drop]
    rw [stateAt_eq_run, map_followedBy hlt.le, followedBy, List.getD_eq_getElem _ _ hlt]
    rw [hsplit, allSteps_append, allSteps_cons] at hfirst
    exact hfirst.2.1
  · rw [followedBy, List.getD_eq_default _ _ hge]
    exact hrest _ n

theorem stateAt_eq_of_still {n n' : Nat} (hle : n ≤ n')
    (h : ∀ m, n ≤ m → m < n' → stateAt step s inputs (m + 1) = stateAt step s inputs m) :
    stateAt step s inputs n' = stateAt step s inputs n := by
  induction n', hle using Nat.le_induction with
  | base => rfl
  | succ n' hle ih =>
    rw [h n' hle (Nat.lt_succ_self n')]
    exact ih fun m hm hlt => h m hm (Nat.lt_succ_of_lt hlt)

/-- Short of the goal, a weakly fair run moves on. -/
theorem exists_move (hfair : WeaklyFair step component s inputs)
    (hP : ∀ n, P (stateAt step s inputs n) (inputs n)) {n : Nat} {k : κ}
    (henabled : Enabled step component (stateAt step s inputs n) k)
    (hmoves : ∀ i, component i = k → P (stateAt step s inputs n) i →
      step (stateAt step s inputs n) i ≠ stateAt step s inputs n) :
    ∃ m ≥ n, stateAt step s inputs (m + 1) ≠ stateAt step s inputs m := by
  by_contra hstill
  push Not at hstill
  have hconst : ∀ m ≥ n, stateAt step s inputs m = stateAt step s inputs n :=
    fun m hm => stateAt_eq_of_still hm fun m' hm' _ => hstill m' hm'
  obtain ⟨m, hm, hk⟩ := hfair k n fun m hm => by rwa [hconst m hm]
  have hPm := hP m
  have hmove := hstill m hm
  rw [stateAt, hconst m hm] at hmove
  rw [hconst m hm] at hPm
  exact hmoves (inputs m) hk hPm hmove

/-- The first move after `n` is made in the state of `n`. -/
theorem exists_first_move {n : Nat}
    (h : ∃ m ≥ n, stateAt step s inputs (m + 1) ≠ stateAt step s inputs m) :
    ∃ m, stateAt step s inputs m = stateAt step s inputs n ∧
      stateAt step s inputs (m + 1) ≠ stateAt step s inputs m := by
  classical
  obtain ⟨hm, hmoves⟩ := Nat.find_spec h
  refine ⟨Nat.find h, stateAt_eq_of_still hm fun m hm' hlt => ?_, hmoves⟩
  by_contra hne
  exact Nat.find_min h hlt ⟨hm', hne⟩

/-- **A weakly fair run reaches its goal.**  `J` is an invariant of the steps that
    meet `P`.  Short of the goal, a step that moves the state reaches the goal or
    decreases the measure, and some enabled component moves it whatever its input. -/
theorem reaches_of_measure {α : Type*} [LT α] [WellFoundedLT α] (goal : σ → Prop)
    (measure : σ → α)
    (hJ : ∀ s i, J s → P s i → J (step s i))
    (hdecreases : ∀ s i, J s → ¬goal s → P s i → step s i ≠ s →
      goal (step s i) ∨ measure (step s i) < measure s)
    (hmoves : ∀ s, J s → ¬goal s → ∃ k, Enabled step component s k ∧
      ∀ i, component i = k → P s i → step s i ≠ s)
    (hs : J s) (hP : ∀ n, P (stateAt step s inputs n) (inputs n))
    (hfair : WeaklyFair step component s inputs) : ∃ n, goal (stateAt step s inputs n) := by
  have hinv := stateAt_invariant hJ hs hP
  suffices h : ∀ a n, measure (stateAt step s inputs n) = a →
      ∃ m, goal (stateAt step s inputs m) from h _ 0 rfl
  intro a
  induction a using WellFoundedLT.induction with
  | ind a ih =>
    rintro n rfl
    by_cases hgoal : goal (stateAt step s inputs n)
    · exact ⟨n, hgoal⟩
    obtain ⟨k, henabled, hk⟩ := hmoves _ (hinv n) hgoal
    obtain ⟨m, hsame, hmove⟩ := exists_first_move (exists_move hfair hP henabled hk)
    rw [← hsame] at hgoal ih
    rcases hdecreases _ _ (hinv m) hgoal (hP m) hmove with hreached | hless
    · exact ⟨m + 1, hreached⟩
    · exact ih _ hless (m + 1) rfl

end Rules

end NvrecYcsb.Runs
