/-
  NvrecYcsb/RecoveryDefs.lean
  ===========================
  **The persisted tuple and its codec** (`recovery/recovery_defs.{h,cc}`).

  A `Tuple` is a packed record of 1009 bytes: the deleted flag, the 64-bit key
  and ten character arrays of `kFieldSize` bytes each, one directly after the
  other.  A `Field` carries its size, so no array of another length can be
  built.  Because the arrays are adjacent, the memory that starts at
  `fields[i].str` goes on into `fields[i + 1]`: `memoryFrom` is that memory up
  to the end of the tuple, and `strlen` reads all of it.  Reading past the end
  of the tuple is undefined behaviour.
-/
import NvrecYcsb.CppRuntime
import NvrecYcsb.Framing
import Mathlib.Data.Fintype.Pi
import Mathlib.Data.List.FinRange

namespace NvrecYcsb.RecoveryDefs

open CppRuntime Framing

def kFieldSize : Nat := 100
def kNumOfFields : Nat := 10
def kDefautFieldName : Str := lit ['f', 'i', 'e', 'l', 'd']

abbrev KVPair := Str × Str

inductive RecoveryStatus where
  | kFail
  | kSuccess
deriving DecidableEq, Repr

/-- `struct Field`: a character array of exactly `kFieldSize` bytes. -/
structure Field where
  str : List Byte
  size_str : str.length = kFieldSize
deriving DecidableEq

/-- The initializer `{'\0'}`. -/
def Field.zero : Field := ⟨List.replicate kFieldSize 0, List.length_replicate⟩

/-- `struct Tuple`, with its default member initializers. -/
structure Tuple where
  deleted : Bool := false
  key : UInt64 := 0
  fields : Fin kNumOfFields → Field := fun _ => Field.zero
deriving DecidableEq

/-- The memory from `fields[i].str` to the end of the tuple. -/
def Tuple.memoryFrom (tuple : Tuple) (i : Nat) : List Byte :=
  ((List.finRange kNumOfFields).drop i).flatMap fun j => (tuple.fields j).str

/-- The name of field `i`, as `RawToDB` builds it. -/
def fieldName (i : Nat) : Str := kDefautFieldName ++ stdToString i

/-! ### `RawToDB` -/

/-- One turn of the loop of `RawToDB`. -/
def rawToDBStep (tuple : Tuple) (result : List KVPair) (i : Fin kNumOfFields) :
    Outcome (List KVPair) :=
  match strlen (tuple.memoryFrom i) with
  | none => .undefined
  | some strLen =>
    if strLen > 0 then
      .returned (result ++ [(fieldName i, (tuple.memoryFrom i).take strLen)])
    else .returned result

/-- `RawToDB`: the non-empty fields in field order. -/
def rawToDB (tuple : Tuple) : Outcome (List KVPair) :=
  (List.finRange kNumOfFields).foldlM (rawToDBStep tuple) []

/-! ### `DBToRaw` -/

/-- `strncpy(tuple.fields[i].str, v.c_str(), v.size())`. -/
def Tuple.copyTo (tuple : Tuple) (i : Fin kNumOfFields) (v : Str)
    (hv : v.length ≤ kFieldSize) : Tuple :=
  { tuple with
    fields := Function.update tuple.fields i
      ⟨strncpy (tuple.fields i).str v v.length, by
        rw [length_strncpy (by rw [Field.size_str]; exact hv), Field.size_str]⟩ }

/-- One turn of the loop of `DBToRaw`.  The `int` that `std::stoi` returns is
    converted to `size_t` before it is checked. -/
def dbToRawStep (tuple : Tuple) (value : KVPair) : Outcome Tuple :=
  if value.1.length < kDefautFieldName.length then .threw .outOfRange
  else do
    let parsed ← stoi (value.1.drop kDefautFieldName.length)
    let i := (parsed % 2 ^ 64).toNat
    if h : i < kNumOfFields ∧ value.2.length ≤ kFieldSize then
      .returned (tuple.copyTo ⟨i, h.1⟩ value.2 h.2)
    else .aborted

/-- `DBToRaw`: a fresh tuple into which every value is copied in list order. -/
def dbToRaw (values : List KVPair) : Outcome Tuple := values.foldlM dbToRawStep {}

/-! ### The tuple as bytes -/

def sizeofTuple : Nat := 1 + 8 + kNumOfFields * kFieldSize

/-- The object representation of a tuple: one byte, the key least byte first,
    the ten arrays. -/
def Tuple.bytes (tuple : Tuple) : List Byte :=
  (if tuple.deleted then 1 else 0) ::
    ((digitsLE 256 8 tuple.key.toNat).map UInt8.ofNat ++ tuple.memoryFrom 0)

def Field.ofBytes (bs : List Byte) : Field :=
  ⟨(bs.take kFieldSize).rightpad kFieldSize 0, by
    rw [List.length_rightpad]
    exact Nat.max_eq_left (List.length_take_le _ _)⟩

/-- The tuple a piece of `sizeofTuple` bytes represents. -/
def Tuple.ofBytes (bs : List Byte) : Tuple where
  deleted := bs.head? != some 0
  key := UInt64.ofNat (ofDigitsLE 256 (((bs.drop 1).take 8).map UInt8.toNat))
  fields := fun i => Field.ofBytes ((bs.drop 9).drop (kFieldSize * i))

/-! ### Fields in memory -/

@[simp] theorem length_str (f : Field) : f.str.length = kFieldSize := f.size_str

theorem Field.ext_str {f g : Field} (h : f.str = g.str) : f = g := by
  cases f
  cases g
  simpa using h

@[simp] theorem str_zero : Field.zero.str = List.replicate kFieldSize 0 := rfl

theorem Tuple.memoryFrom_succ (tuple : Tuple) (i : Fin kNumOfFields) :
    tuple.memoryFrom i = (tuple.fields i).str ++ tuple.memoryFrom (i + 1) := by
  have hi : (i : Nat) < (List.finRange kNumOfFields).length := by simp
  rw [memoryFrom, List.drop_eq_getElem_cons hi, List.flatMap_cons, memoryFrom]
  simp

theorem Tuple.memoryFrom_end (tuple : Tuple) : tuple.memoryFrom kNumOfFields = [] := by
  rw [memoryFrom, List.drop_of_length_le (by simp), List.flatMap_nil]

theorem Tuple.length_memoryFrom_zero (tuple : Tuple) :
    (tuple.memoryFrom 0).length = kNumOfFields * kFieldSize := by
  simp [memoryFrom, List.length_flatMap]

theorem Tuple.drop_memoryFrom_zero (tuple : Tuple) {i : Nat} (hi : i ≤ kNumOfFields) :
    (tuple.memoryFrom 0).drop (kFieldSize * i) = tuple.memoryFrom i := by
  induction i with
  | zero => rfl
  | succ i ih =>
    have hmem := tuple.memoryFrom_succ ⟨i, hi⟩
    rw [Nat.mul_succ, ← List.drop_drop, ih (by omega)]
    rw [hmem, List.drop_left' (length_str _)]

theorem Field.ofBytes_str_append (f : Field) (bs : List Byte) :
    Field.ofBytes (f.str ++ bs) = f := by
  apply Field.ext_str
  show ((f.str ++ bs).take kFieldSize).rightpad kFieldSize 0 = f.str
  rw [List.take_left' f.size_str]
  simp [List.rightpad, f.size_str]

/-! ### The byte code of tuples -/

theorem Tuple.length_bytes (tuple : Tuple) : tuple.bytes.length = sizeofTuple := by
  rw [bytes, List.length_cons, List.length_append, List.length_map, length_digitsLE,
    length_memoryFrom_zero, sizeofTuple]
  omega

theorem map_toNat_digitsLE (n k : Nat) :
    ((digitsLE 256 n k).map UInt8.ofNat).map UInt8.toNat = digitsLE 256 n k := by
  rw [List.map_map]
  conv => rhs; rw [← List.map_id (digitsLE 256 n k)]
  refine List.map_congr_left fun d hd => ?_
  have hlt : d < 256 := lt_of_mem_digitsLE (by decide) hd
  rw [Function.comp_apply, UInt8.toNat_ofNat']
  exact Nat.mod_eq_of_lt hlt

theorem Tuple.ofBytes_bytes (tuple : Tuple) : Tuple.ofBytes tuple.bytes = tuple := by
  have hkey : ((digitsLE 256 8 tuple.key.toNat).map UInt8.ofNat).length = 8 := by simp
  have hdeleted : (Tuple.ofBytes tuple.bytes).deleted = tuple.deleted := by
    simp only [ofBytes, bytes, List.head?_cons]
    cases tuple.deleted <;> rfl
  have hkeyOf : (Tuple.ofBytes tuple.bytes).key = tuple.key := by
    have hlt : tuple.key.toNat < 256 ^ 8 := tuple.key.toNat_lt
    simp only [ofBytes, bytes, List.drop_one, List.tail_cons]
    rw [List.take_left' hkey, map_toNat_digitsLE, ofDigitsLE_digitsLE, Nat.mod_eq_of_lt hlt,
      UInt64.ofNat_toNat]
  have hfields : (Tuple.ofBytes tuple.bytes).fields = tuple.fields := by
    funext i
    simp only [ofBytes, bytes, List.drop_succ_cons]
    rw [List.drop_left' hkey, tuple.drop_memoryFrom_zero i.isLt.le, tuple.memoryFrom_succ i]
    exact Field.ofBytes_str_append _ _
  calc Tuple.ofBytes tuple.bytes
      = ⟨(Tuple.ofBytes tuple.bytes).deleted, (Tuple.ofBytes tuple.bytes).key,
          (Tuple.ofBytes tuple.bytes).fields⟩ := rfl
    _ = ⟨tuple.deleted, tuple.key, tuple.fields⟩ := by rw [hdeleted, hkeyOf, hfields]

/-- **Tuples as frames**: what a reader that steps by `sizeof(Tuple)` assumes. -/
def tupleCode : FixedCode Tuple Byte where
  width := sizeofTuple
  encode := Tuple.bytes
  decode := Tuple.ofBytes
  width_pos := by decide
  length_encode := Tuple.length_bytes
  decode_encode := Tuple.ofBytes_bytes

end NvrecYcsb.RecoveryDefs
