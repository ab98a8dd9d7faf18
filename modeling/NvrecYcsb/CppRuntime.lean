/-
  NvrecYcsb/CppRuntime.lean
  =========================
  **The pieces of C++ and its library that the store relies on.**

  Bytes and byte strings, how a call can end, the number conversions of
  `<string>` (`std::to_string`, `std::stoul`, `std::stoi`), and the two C
  string functions the tuple codec uses (`strlen`, `strncpy`).

  A byte string is a list of bytes and may contain NUL.  The conversions follow
  `strtoul` / `strtol` in base ten: leading white space is skipped, one sign is
  taken, the longest run of digits is read and whatever follows is ignored.
-/
import Mathlib.Algebra.Order.Ring.Int
import Mathlib.Data.List.TakeWhile
import Mathlib.Tactic.Common

namespace NvrecYcsb.CppRuntime

abbrev Byte := UInt8

abbrev Str := List Byte

def lit (cs : List Char) : Str := cs.map Char.toUInt8

/-- A string literal of the source. -/
def str (s : String) : Str := lit s.toList

/-! ### How a call ends -/

/-- The exceptions the modelled code throws or lets through. -/
inductive Exn where
  | invalidArgument              -- std::invalid_argument
  | outOfRange                   -- std::out_of_range
  | runtimeError (what : String) -- std::runtime_error
  | poolError                    -- pmem::pool_error
  | exception (message : Str)    -- utils::Exception
deriving DecidableEq, Repr

/-- How a call ends: with a value, by an exception, by a failed `assert`, in
    undefined behaviour, or not at all within the allowed recursion depth. -/
inductive Outcome (α : Type) where
  | returned (a : α)
  | threw (e : Exn)
  | aborted
  | undefined
  | running
deriving DecidableEq, Repr

namespace Outcome

variable {α β : Type}

def bind : Outcome α → (α → Outcome β) → Outcome β
  | returned a, f => f a
  | threw e, _ => threw e
  | aborted, _ => aborted
  | undefined, _ => undefined
  | running, _ => running

instance : Monad Outcome where
  pure := returned
  bind := bind

@[simp] theorem pure_eq (a : α) : (pure a : Outcome α) = returned a := rfl

@[simp] theorem returned_bind (a : α) (f : α → Outcome β) :
    (returned a >>= f) = f a := rfl

@[simp] theorem undefined_bind (f : α → Outcome β) :
    ((undefined : Outcome α) >>= f) = undefined := rfl

theorem bind_eq_returned {x : Outcome α} {f : α → Outcome β} {b : β} :
    (x >>= f) = returned b ↔ ∃ a, x = returned a ∧ f a = returned b := by
  constructor
  · intro h
    cases x with
    | returned a => exact ⟨a, rfl, h⟩
    | threw e => cases h
    | aborted => cases h
    | undefined => cases h
    | running => cases h
  · rintro ⟨a, rfl, h⟩
    exact h

end Outcome

/-! ### Numbers and strings -/

/-- `isspace` in the C locale. -/
def isSpace (b : Byte) : Bool := b == 32 || (9 ≤ b && b ≤ 13)

def isDigit (b : Byte) : Bool := 48 ≤ b && b ≤ 57

/-- `std::to_string` of an unsigned value. -/
def stdToString (n : Nat) : Str := (Nat.toDigits 10 n).map Char.toUInt8

def digitsValue (ds : List Byte) : Nat := ds.foldl (fun n b => 10 * n + (b.toNat - 48)) 0

/-- What `strtol` and `strtoul` read: the sign, and the digits after it. -/
def scanNumber (s : Str) : Bool × List Byte :=
  match s.dropWhile isSpace with
  | 45 :: rest => (true, rest.takeWhile isDigit)
  | 43 :: rest => (false, rest.takeWhile isDigit)
  | rest => (false, rest.takeWhile isDigit)

/-- `std::stoul`: a minus sign negates modulo `2^64`. -/
def stoul (s : Str) : Outcome UInt64 :=
  if (scanNumber s).2 = [] then .threw .invalidArgument
  else if 2 ^ 64 ≤ digitsValue (scanNumber s).2 then .threw .outOfRange
  else if (scanNumber s).1 then .returned (-UInt64.ofNat (digitsValue (scanNumber s).2))
  else .returned (UInt64.ofNat (digitsValue (scanNumber s).2))

/-- `std::stoi`, its result within the range of `int`. -/
def stoi (s : Str) : Outcome Int :=
  let magnitude : Int := digitsValue (scanNumber s).2
  let value := if (scanNumber s).1 then -magnitude else magnitude
  if (scanNumber s).2 = [] then .threw .invalidArgument
  else if value < -2 ^ 31 ∨ 2 ^ 31 ≤ value then .threw .outOfRange
  else .returned value

theorem toNat_toUInt8_of_isDigit {c : Char} (h : c.isDigit = true) :
    c.toUInt8.toNat = c.toNat := by
  have hle : c.toNat ≤ 57 := (Char.isDigit_iff_toNat.mp h).2
  have hlt : c.toNat < 256 := by omega
  show (c.val.toUInt8).toNat = c.toNat
  rw [UInt32.toNat_toUInt8]
  exact Nat.mod_eq_of_lt hlt

theorem isDigit_of_mem_stdToString {n : Nat} {b : Byte} (h : b ∈ stdToString n) :
    isDigit b = true := by
  obtain ⟨c, hc, rfl⟩ := List.mem_map.mp h
  have hd := Nat.isDigit_of_mem_toDigits (by decide) (by decide) hc
  have hn := toNat_toUInt8_of_isDigit hd
  obtain ⟨hlo, hhi⟩ := Char.isDigit_iff_toNat.mp hd
  simp only [isDigit, Bool.and_eq_true, decide_eq_true_eq, UInt8.le_iff_toNat_le]
  rw [hn]
  exact ⟨hlo, hhi⟩

theorem digitsValue_stdToString (n : Nat) : digitsValue (stdToString n) = n := by
  have hfold : ∀ (cs : List Char) (acc : Nat), (∀ c ∈ cs, c.isDigit = true) →
      (cs.map Char.toUInt8).foldl (fun n b => 10 * n + (b.toNat - 48)) acc =
        Nat.ofDigitChars 10 cs acc := by
    intro cs
    induction cs with
    | nil => intro acc _; simp
    | cons c cs ih =>
      intro acc hcs
      have hc := toNat_toUInt8_of_isDigit (hcs c (by simp))
      rw [List.map_cons, List.foldl_cons, hc, Nat.ofDigitChars_cons]
      exact ih _ fun d hd => hcs d (by simp [hd])
  rw [digitsValue, stdToString, hfold _ _ fun c hc =>
    Nat.isDigit_of_mem_toDigits (by decide) (by decide) hc]
  exact Nat.ofDigitChars_ten_toDigits

theorem stdToString_ne_nil (n : Nat) : stdToString n ≠ [] := by
  simp [stdToString]

theorem stdToString_injective : Function.Injective stdToString := fun a b h => by
  rw [← digitsValue_stdToString a, h, digitsValue_stdToString]

theorem scanNumber_stdToString (n : Nat) :
    scanNumber (stdToString n) = (false, stdToString n) := by
  have hall : ∀ b ∈ stdToString n, isDigit b = true := fun b => isDigit_of_mem_stdToString
  have htake : (stdToString n).takeWhile isDigit = stdToString n :=
    List.takeWhile_eq_self_iff.mpr hall
  obtain ⟨b, bs, hcons⟩ := List.exists_cons_of_ne_nil (stdToString_ne_nil n)
  have hb : isDigit b = true := hall b (by simp [hcons])
  have hrange : 48 ≤ b.toNat ∧ b.toNat ≤ 57 := by
    simpa [isDigit, UInt8.le_iff_toNat_le] using hb
  have hspace : isSpace b = false := by
    simp only [isSpace, Bool.or_eq_false_iff, beq_eq_false_iff_ne, ne_eq,
      Bool.and_eq_false_iff, decide_eq_false_iff_not, UInt8.le_iff_toNat_le,
      ← UInt8.toNat_inj, UInt8.reduceToNat]
    omega
  have hdrop : (stdToString n).dropWhile isSpace = stdToString n := by
    rw [hcons, List.dropWhile_cons_of_neg (by simp [hspace])]
  rw [scanNumber, hdrop]
  split
  · rename_i rest h45
    rw [hcons] at h45
    obtain ⟨rfl, -⟩ := List.cons.inj h45
    simp at hrange
  · rename_i rest h43
    rw [hcons] at h43
    obtain ⟨rfl, -⟩ := List.cons.inj h43
    simp at hrange
  · rw [htake]

/-- **`std::stoul` undoes `std::to_string`** on 64-bit values. -/
theorem stoul_stdToString {n : Nat} (h : n < 2 ^ 64) :
    stoul (stdToString n) = .returned (UInt64.ofNat n) := by
  simp only [stoul, scanNumber_stdToString, digitsValue_stdToString, Bool.false_eq_true, if_false]
  rw [if_neg (stdToString_ne_nil n), if_neg (Nat.not_le.mpr h)]

theorem stoi_stdToString {n : Nat} (h : n < 2 ^ 31) :
    stoi (stdToString n) = .returned (n : Int) := by
  have hlt : ¬((n : Int) < -2 ^ 31 ∨ 2 ^ 31 ≤ (n : Int)) := by omega
  simp only [stoi, scanNumber_stdToString, digitsValue_stdToString, Bool.false_eq_true,
    if_false]
  rw [if_neg (stdToString_ne_nil n), if_neg hlt]

/-! ### C strings -/

/-- `strlen` of the memory that starts at its argument; `none` when no NUL is
    found before the memory known to the model ends. -/
def strlen (mem : List Byte) : Option Nat := mem.findIdx? (· == 0)

/-- `strncpy(dst, src.c_str(), n)`: up to `n` bytes of `src`, stopping at its
    first NUL and filling up with NULs to `n`; the rest of `dst` stays. -/
def strncpy (dst : List Byte) (src : Str) (n : Nat) : List Byte :=
  ((src.takeWhile (· != 0)).take n).rightpad n 0 ++ dst.drop n

def NulFree (s : Str) : Prop := 0 ∉ s

instance (s : Str) : Decidable (NulFree s) := by unfold NulFree; infer_instance

theorem nulFree_takeWhile (mem : List Byte) : NulFree (mem.takeWhile (· != 0)) := by
  intro h
  have h0 := List.mem_takeWhile_imp h
  cases h0

theorem takeWhile_of_nulFree {s : Str} (h : NulFree s) : s.takeWhile (· != 0) = s := by
  rw [List.takeWhile_eq_self_iff]
  intro b hb
  have hne : b ≠ 0 := fun h0 => h (h0 ▸ hb)
  simpa using hne

theorem strncpy_of_nulFree {s : Str} (h : NulFree s) (dst : List Byte) :
    strncpy dst s s.length = s ++ dst.drop s.length := by
  rw [strncpy, takeWhile_of_nulFree h, List.take_length]
  simp [List.rightpad]

theorem length_strncpy {dst : List Byte} {s : Str} {n : Nat} (hn : n ≤ dst.length) :
    (strncpy dst s n).length = dst.length := by
  have htake : ((s.takeWhile (· != 0)).take n).length ≤ n := List.length_take_le _ _
  rw [strncpy, List.length_append, List.length_rightpad, List.length_drop]
  omega

theorem strlen_le_length {mem : List Byte} {n : Nat} (h : strlen mem = some n) :
    n ≤ mem.length := by
  rw [strlen, List.findIdx?_eq_some_iff_getElem] at h
  exact h.1.le

theorem strlen_append_of_nulFree {s : Str} (h : NulFree s) (mem : List Byte) :
    strlen (s ++ mem) = (strlen mem).map (· + s.length) := by
  have hnone : s.findIdx? (· == 0) = none := by
    rw [List.findIdx?_eq_none_iff]
    intro b hb
    have hne : b ≠ 0 := fun h0 => h (h0 ▸ hb)
    simpa using hne
  rw [strlen, strlen, List.findIdx?_append, hnone, Option.none_or]

@[simp] theorem strlen_zero_cons (mem : List Byte) : strlen (0 :: mem) = some 0 := by
  simp [strlen, List.findIdx?_cons]

end NvrecYcsb.CppRuntime
