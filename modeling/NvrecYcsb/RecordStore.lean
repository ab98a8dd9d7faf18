/-
  NvrecYcsb/RecordStore.lean
  ==========================
  **A store of records, as a map of maps.**

  A record is a partial map from fields to values, a store a partial map from
  keys to records.  A command inserts a record in place of any old one, updates
  the record that is there, or deletes it.  The pairs that an insert or an update
  carries may repeat a field; the last pair counts.

  This is what a store is for, whatever it keeps its records in: a program that
  implements it follows `after`, the store that a history of commands leaves.
-/
import NvrecYcsb.RecordReplay

namespace NvrecYcsb.RecordStore

open RecordReplay

variable {κ φ ν : Type*} [DecidableEq κ] [DecidableEq φ]

/-- The last value carried for each field. -/
def carried (values : List (φ × ν)) : φ → Option ν := fun f =>
  ((values.filter fun p => p.1 = f).map Prod.snd).getLast?

inductive Command (φ ν : Type*)
  | insert (values : List (φ × ν))
  | update (values : List (φ × ν))
  | delete

/-- What a command does to the record it is about. -/
def Command.effect : Command φ ν → Option (φ → Option ν) → Option (φ → Option ν)
  | .insert values, _ => some (carried values)
  | .update values, record => record.map (overlay (carried values))
  | .delete, _ => none

/-- The command finds the record it needs. -/
def Command.Finds : Command φ ν → Option (φ → Option ν) → Prop
  | .insert _, _ => True
  | .update _, record => record ≠ none
  | .delete, record => record ≠ none

abbrev Store (κ φ ν : Type*) := κ → Option (φ → Option ν)

def step (s : Store κ φ ν) (c : κ × Command φ ν) : Store κ φ ν :=
  Function.update s c.1 (c.2.effect (s c.1))

/-- The store that a history of commands leaves, the first command first. -/
def after (history : List (κ × Command φ ν)) : Store κ φ ν :=
  history.foldl step fun _ => none

@[simp] theorem after_nil : after ([] : List (κ × Command φ ν)) = fun _ => none := rfl

theorem after_snoc (history : List (κ × Command φ ν)) (c : κ × Command φ ν) :
    after (history ++ [c]) = step (after history) c := by
  rw [after, List.foldl_append]
  rfl

theorem step_apply (s : Store κ φ ν) (c : κ × Command φ ν) (k : κ) :
    step s c k = if c.1 = k then c.2.effect (s k) else s k := by
  rw [step]
  by_cases h : c.1 = k
  · subst h
    rw [Function.update_self, if_pos rfl]
  · rw [Function.update_of_ne (Ne.symm h), if_neg h]

/-! ### The values carried -/

@[simp] theorem carried_nil : carried ([] : List (φ × ν)) = blank := rfl

theorem carried_cons (p : φ × ν) (values : List (φ × ν)) (f : φ) :
    carried (p :: values) f = (carried values f).or (if p.1 = f then some p.2 else none) := by
  rw [carried, carried]
  by_cases h : p.1 = f
  · rw [List.filter_cons_of_pos (by simpa using h), List.map_cons, List.getLast?_cons, if_pos h]
    cases ((values.filter fun p => p.1 = f).map Prod.snd).getLast? <;> rfl
  · rw [List.filter_cons_of_neg (by simpa using h), if_neg h, Option.or_none]

theorem carried_eq_none_iff {values : List (φ × ν)} {f : φ} :
    carried values f = none ↔ f ∉ values.map Prod.fst := by
  induction values with
  | nil => simp [blank]
  | cons p values ih =>
    rw [carried_cons, Option.or_eq_none_iff, ih, List.map_cons, List.mem_cons, not_or]
    by_cases h : p.1 = f
    · simp [h]
    · simp [h, Ne.symm h]

/-- Among pairs with distinct fields the last of a field is the only one. -/
theorem carried_of_nodup [BEq φ] [LawfulBEq φ] {values : List (φ × ν)}
    (h : (values.map Prod.fst).Nodup) (f : φ) : carried values f = values.lookup f := by
  induction values with
  | nil => rfl
  | cons p values ih =>
    obtain ⟨hp, hnd⟩ := List.nodup_cons.mp (List.map_cons ▸ h)
    obtain ⟨g, v⟩ := p
    rw [carried_cons, List.lookup_cons]
    by_cases hf : g = f
    · subst hf
      rw [carried_eq_none_iff.mpr hp]
      simp
    · rw [ih hnd, if_neg hf, Option.or_none, beq_false_of_ne (Ne.symm hf)]

end NvrecYcsb.RecordStore
