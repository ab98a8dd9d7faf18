/-
  NvrecYcsb/StlHashtable.lean
  ===========================
  **Strings with their hash, and the hash table over them** (`lib/string.h`,
  `lib/stl_hashtable.h`).

  A key is given as a C string: what stands before its first NUL is the key.
  Two `String`s are equal when their hashes agree and `strcmp` finds no
  difference, which is to say when they are the same C string
  (`eq_wrap_iff`), so the `std::unordered_map` is a finite map from C strings.
  The order of `Entries` is the map's own business and no proof depends on it.
  `LockStlHashtable` makes each of these functions one step under a mutex.
-/
import NvrecYcsb.CppRuntime
import Std.Data.ExtTreeMap.Lemmas

namespace NvrecYcsb.StlHashtable

open CppRuntime

/-- The C string that memory starts with. -/
def cStr (s : Str) : Str := s.takeWhile (· != 0)

/-! ### Strings -/

/-- `class String`. -/
structure String where
  hash : UInt64
  value : Str

/-- `SDBMHash`; a `char` is signed, so its sign is extended. -/
def sdbmHash (cstr : Str) : UInt64 :=
  cstr.foldl (fun hash c => c.toInt8.toInt64.toUInt64 + (hash <<< 6) + (hash <<< 16) - hash) 0

/-- `Wrap`, and `Copy` but for where the bytes live. -/
def String.wrap (cstr : Str) : String := ⟨sdbmHash (cStr cstr), cStr cstr⟩

/-- `operator==`. -/
def String.eq (a b : String) : Bool := if a.hash ≠ b.hash then false else a.value = b.value

/-- **The hash decides nothing**: equal strings are equal C strings. -/
theorem eq_wrap_iff (s t : Str) : (String.wrap s).eq (String.wrap t) = true ↔ cStr s = cStr t := by
  rw [String.eq]
  constructor
  · intro h
    split at h
    · cases h
    · exact of_decide_eq_true h
  · intro h
    rw [String.wrap, String.wrap, h]
    simp

theorem cStr_of_nulFree {s : Str} (h : NulFree s) : cStr s = s := takeWhile_of_nulFree h

theorem nulFree_cStr (s : Str) : NulFree (cStr s) := nulFree_takeWhile s

theorem nulFree_append {s t : Str} (hs : NulFree s) (ht : NulFree t) : NulFree (s ++ t) := by
  intro h
  rcases List.mem_append.mp h with h | h
  · exact hs h
  · exact ht h

@[simp] theorem cStr_cStr (s : Str) : cStr (cStr s) = cStr s := cStr_of_nulFree (nulFree_cStr s)

/-! ### The table -/

abbrev Table (V : Type) := Std.ExtTreeMap Str V

section Operations

variable {V : Type} (table : Table V) (key : Str)

/-- `Get`; `none` is the null pointer. -/
def get : Option V := table[cStr key]?

/-- `Insert`: whether the key was new; a value that is there stays. -/
def insert (value : V) : Bool × Table V :=
  match table[cStr key]? with
  | none => (true, Std.ExtTreeMap.insert table (cStr key) value)
  | some _ => (false, table)

/-- `Update`: the value it replaces; a key that is not there stays away. -/
def update (value : V) : Option V × Table V :=
  match table[cStr key]? with
  | none => (none, table)
  | some old => (some old, Std.ExtTreeMap.insert table (cStr key) value)

/-- `Remove`: the value of the key that is gone. -/
def remove : Option V × Table V :=
  match table[cStr key]? with
  | none => (none, table)
  | some old => (some old, table.erase (cStr key))

/-- `Entries()`, the whole table. -/
def entries : List (Str × V) := table.toList

end Operations

section Laws

variable {V : Type} {table : Table V} {key : Str}

@[simp] theorem get_empty : get (∅ : Table V) key = none := Std.ExtTreeMap.getElem?_empty

theorem insert_fst (value : V) : (insert table key value).1 = (get table key).isNone := by
  rw [insert, get]
  cases table[cStr key]? <;> rfl

theorem update_fst (value : V) : (update table key value).1 = get table key := by
  rw [update, get]
  cases table[cStr key]? <;> rfl

theorem remove_fst : (remove table key).1 = get table key := by
  rw [remove, get]
  cases table[cStr key]? <;> rfl

theorem getElem?_insert (value : V) (name : Str) :
    (insert table key value).2[name]? =
      if cStr key = name ∧ table[name]? = none then some value else table[name]? := by
  rw [insert]
  cases hkey : table[cStr key]? with
  | some old =>
    have hnot : ¬(cStr key = name ∧ table[name]? = none) := by
      rintro ⟨rfl, hnone⟩
      rw [hkey] at hnone
      cases hnone
    rw [if_neg hnot]
  | none =>
    rw [Std.ExtTreeMap.getElem?_insert]
    by_cases h : cStr key = name
    · simp [← h, hkey]
    · simp [h]

/-- A key that is not there is bound. -/
theorem getElem?_insert_of_absent (hnone : table[cStr key]? = none) (value : V) (name : Str) :
    (insert table key value).2[name]? = if cStr key = name then some value else table[name]? := by
  rw [getElem?_insert]
  by_cases h : cStr key = name
  · rw [if_pos h, if_pos ⟨h, h ▸ hnone⟩]
  · rw [if_neg h, if_neg fun hh => h hh.1]

/-- What is in the table stays. -/
theorem getElem?_insert_of_present {name : Str} {old : V} (h : table[name]? = some old) (value : V) :
    (insert table key value).2[name]? = some old := by
  rw [getElem?_insert, if_neg, h]
  rintro ⟨-, hnone⟩
  rw [h] at hnone
  cases hnone

theorem getElem?_update (value : V) (name : Str) :
    (update table key value).2[name]? =
      if cStr key = name then table[name]?.map fun _ => value else table[name]? := by
  rw [update]
  cases hkey : table[cStr key]? with
  | none =>
    by_cases h : cStr key = name
    · simp [← h, hkey]
    · simp [h]
  | some old =>
    rw [Std.ExtTreeMap.getElem?_insert]
    by_cases h : cStr key = name
    · simp [← h, hkey]
    · simp [h]

theorem getElem?_remove (name : Str) :
    (remove table key).2[name]? = if cStr key = name then none else table[name]? := by
  rw [remove]
  cases hkey : table[cStr key]? with
  | none =>
    by_cases h : cStr key = name
    · simp [← h, hkey]
    · simp [h]
  | some old =>
    rw [Std.ExtTreeMap.getElem?_erase]
    by_cases h : cStr key = name <;> simp [h]

theorem mem_entries_iff {entry : Str × V} : entry ∈ entries table ↔ table[entry.1]? = some entry.2 :=
  Std.ExtTreeMap.mem_toList_iff_getElem?_eq_some

end Laws

end NvrecYcsb.StlHashtable
