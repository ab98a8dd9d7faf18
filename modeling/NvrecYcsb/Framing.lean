/-
  NvrecYcsb/Framing.lean
  ======================
  **Streams of fixed-width frames.**

  A `FixedCode` writes a value as a list of a fixed, positive number of symbols
  and reads it back.  `cut` splits a stream into pieces of the given width, the
  last one shorter when the stream ends early; `readAll` decodes the whole
  pieces.  The round trip `readAll_writeAll` is what makes a stream written
  frame by frame readable by a reader that steps by the width.
  Numbers are written little endian (`digitsLE`), the least symbol first.
-/
import Mathlib.Algebra.Order.Ring.Int
import Mathlib.Data.List.Basic
import Mathlib.Tactic.Common

namespace NvrecYcsb.Framing

variable {τ β : Type*}

/-- Cut a stream into pieces of `w` symbols; the last piece may be shorter.
    The first argument bounds the number of pieces. -/
def cutFuel (w : Nat) : Nat → List β → List (List β)
  | 0, _ => []
  | _ + 1, [] => []
  | n + 1, b :: bs => (b :: bs).take w :: cutFuel w n ((b :: bs).drop w)

def cut (w : Nat) (bs : List β) : List (List β) := cutFuel w bs.length bs

/-- A code of fixed positive width. -/
structure FixedCode (τ β : Type*) where
  width : Nat
  encode : τ → List β
  decode : List β → τ
  width_pos : 0 < width
  length_encode : ∀ t, (encode t).length = width
  decode_encode : ∀ t, decode (encode t) = t

/-! ### Cutting -/

theorem cutFuel_eq_cutFuel {w : Nat} (hw : 0 < w) :
    ∀ (n m : Nat) (bs : List β), bs.length ≤ n → bs.length ≤ m →
      cutFuel w n bs = cutFuel w m bs
  | 0, m, bs, hn, _ => by
    obtain rfl := List.length_eq_zero_iff.mp (Nat.le_zero.mp hn)
    cases m <;> rfl
  | n + 1, 0, bs, _, hm => by
    obtain rfl := List.length_eq_zero_iff.mp (Nat.le_zero.mp hm)
    rfl
  | n + 1, m + 1, [], _, _ => rfl
  | n + 1, m + 1, b :: bs, hn, hm => by
    have hlen : ((b :: bs).drop w).length ≤ bs.length := by
      rw [List.length_drop, List.length_cons]
      omega
    rw [List.length_cons] at hn hm
    simp only [cutFuel]
    rw [cutFuel_eq_cutFuel hw n m _ (by omega) (by omega)]

@[simp] theorem cut_nil (w : Nat) : cut w ([] : List β) = [] := rfl

theorem cut_append {w : Nat} (hw : 0 < w) {p : List β} (hp : p.length = w) (bs : List β) :
    cut w (p ++ bs) = p :: cut w bs := by
  cases p with
  | nil => simp at hp; omega
  | cons b p =>
    rw [cut, List.cons_append, List.length_cons, cutFuel, ← List.cons_append]
    rw [List.take_left' hp, List.drop_left' hp, cut]
    congr 1
    exact cutFuel_eq_cutFuel hw _ _ _ (by simp) (by simp)

/-! ### Frames -/

namespace FixedCode

variable (c : FixedCode τ β)

/-- The frames of the values, one after another. -/
def writeAll (ts : List τ) : List β := ts.flatMap c.encode

/-- Decode the whole frames of a stream, in order. -/
def readAll (bs : List β) : List τ :=
  ((cut c.width bs).filter fun p => p.length = c.width).map c.decode

@[simp] theorem writeAll_nil : c.writeAll [] = [] := rfl

@[simp] theorem writeAll_cons (t : τ) (ts : List τ) :
    c.writeAll (t :: ts) = c.encode t ++ c.writeAll ts := rfl

@[simp] theorem writeAll_append (a b : List τ) :
    c.writeAll (a ++ b) = c.writeAll a ++ c.writeAll b :=
  List.flatMap_append

theorem length_writeAll (ts : List τ) : (c.writeAll ts).length = c.width * ts.length := by
  induction ts with
  | nil => simp
  | cons t ts ih =>
    rw [writeAll_cons, List.length_append, c.length_encode, ih, List.length_cons, Nat.mul_succ,
      Nat.add_comm]

theorem cut_writeAll (ts : List τ) : cut c.width (c.writeAll ts) = ts.map c.encode := by
  induction ts with
  | nil => rfl
  | cons t ts ih =>
    rw [writeAll_cons, cut_append c.width_pos (c.length_encode t), ih, List.map_cons]

/-- **A stream written frame by frame reads back as the values written.** -/
@[simp] theorem readAll_writeAll (ts : List τ) : c.readAll (c.writeAll ts) = ts := by
  rw [readAll, cut_writeAll, List.filter_eq_self.mpr, List.map_map]
  · rw [show c.decode ∘ c.encode = id from funext c.decode_encode, List.map_id]
  · intro p hp
    obtain ⟨t, -, rfl⟩ := List.mem_map.mp hp
    simp [c.length_encode]

end FixedCode

/-! ### Numbers, least symbol first -/

/-- The `n` low digits of `k` in base `b`. -/
def digitsLE (b : Nat) : Nat → Nat → List Nat
  | 0, _ => []
  | n + 1, k => k % b :: digitsLE b n (k / b)

/-- The number a list of base-`b` digits stands for. -/
def ofDigitsLE (b : Nat) : List Nat → Nat
  | [] => 0
  | d :: ds => d + b * ofDigitsLE b ds

@[simp] theorem length_digitsLE (b n k : Nat) : (digitsLE b n k).length = n := by
  induction n generalizing k with
  | zero => rfl
  | succ n ih => simp [digitsLE, ih]

theorem lt_of_mem_digitsLE {b : Nat} (hb : 0 < b) {n k d : Nat} (hd : d ∈ digitsLE b n k) :
    d < b := by
  induction n generalizing k with
  | zero => cases hd
  | succ n ih =>
    rcases List.mem_cons.mp hd with rfl | hd
    · exact Nat.mod_lt _ hb
    · exact ih hd

theorem ofDigitsLE_digitsLE (b n k : Nat) :
    ofDigitsLE b (digitsLE b n k) = k % b ^ n := by
  induction n generalizing k with
  | zero => simp [digitsLE, ofDigitsLE, Nat.mod_one]
  | succ n ih => rw [digitsLE, ofDigitsLE, ih, Nat.pow_succ', Nat.mod_mul]

end NvrecYcsb.Framing
