/-
  NvrecYcsb/TupleCodec.lean
  =========================
  **What `DBToRaw` writes and what `RawToDB` reads back.**

  The encoder copies exactly `size()` bytes of each value and writes no
  terminator; the decoder looks for a NUL from the start of each field and does
  not stop at the end of the field.  So a field that is filled to its last byte
  is read together with whatever follows it.

  * `dbToRaw_spec`: the arrays after encoding, for any list of field values;
  * `rawToDB_eq`, `rawToDB_undefined`: the decoder, from the `strlen` of each
    field;
  * `roundTrips_iff`: a list of field values with distinct names is read back
    exactly when no full field is followed by a carried field or is the last.
-/
import NvrecYcsb.RecoveryDefs
import Mathlib.Data.List.Nodup
import Mathlib.Data.List.Lookmap
import Mathlib.Data.List.Perm.Lattice

namespace NvrecYcsb.TupleCodec

open CppRuntime RecoveryDefs

/-- A value of one of the ten fields: no NUL byte, not empty, at most `max` bytes. -/
structure FieldPair (max : Nat) (value : KVPair) : Prop where
  name : ∃ i : Fin kNumOfFields, value.1 = fieldName i
  nulFree : NulFree value.2
  nonempty : 0 < value.2.length
  bounded : value.2.length ≤ max

theorem FieldPair.mono {m n : Nat} (h : m ≤ n) {value : KVPair} (hv : FieldPair m value) :
    FieldPair n value :=
  ⟨hv.name, hv.nulFree, hv.nonempty, hv.bounded.trans h⟩

theorem fieldName_injective : Function.Injective fieldName := fun _ _ h =>
  stdToString_injective (List.append_cancel_left h)

theorem fieldName_inj {i j : Nat} : fieldName i = fieldName j ↔ i = j :=
  fieldName_injective.eq_iff

/-! ### The encoder -/

theorem drop_fieldName (i : Nat) :
    (fieldName i).drop kDefautFieldName.length = stdToString i :=
  List.drop_left' rfl

theorem length_fieldName (i : Nat) : ¬(fieldName i).length < kDefautFieldName.length := by
  rw [fieldName, List.length_append]
  omega

theorem dbToRawStep_fieldName (tuple : Tuple) (i : Fin kNumOfFields) {v : Str}
    (hv : v.length ≤ kFieldSize) :
    dbToRawStep tuple (fieldName i, v) = .returned (tuple.copyTo i v hv) := by
  have hlt : (i : Nat) < 10 := i.isLt
  have hsize : (((i : Nat) : Int) % 2 ^ 64).toNat = (i : Nat) := by omega
  have hcheck : (((i : Nat) : Int) % 2 ^ 64).toNat < kNumOfFields ∧ v.length ≤ kFieldSize := by
    rw [hsize]
    exact ⟨i.isLt, hv⟩
  simp only [dbToRawStep, drop_fieldName]
  rw [if_neg (length_fieldName i), stoi_stdToString (by omega), Outcome.returned_bind,
    dif_pos hcheck]
  congr

/-- The bytes a value leaves in an array that holds `str`. -/
def overwrite (str : List Byte) (v : Str) : List Byte := strncpy str v v.length

def valuesOf (name : Str) (values : List KVPair) : List Str :=
  (values.filter fun p => p.1 = name).map Prod.snd

theorem valuesOf_cons (name : Str) (p : KVPair) (values : List KVPair) :
    valuesOf name (p :: values) =
      if p.1 = name then p.2 :: valuesOf name values else valuesOf name values := by
  by_cases h : p.1 = name <;> simp [valuesOf, h]

theorem str_copyTo (tuple : Tuple) (i j : Fin kNumOfFields) {v : Str}
    (hv : v.length ≤ kFieldSize) :
    ((tuple.copyTo i v hv).fields j).str =
      if i = j then overwrite (tuple.fields j).str v else (tuple.fields j).str := by
  by_cases h : i = j
  · subst h
    simp [Tuple.copyTo, overwrite]
  · simp [Tuple.copyTo, Function.update_of_ne (Ne.symm h), h]

/-- **The encoder.**  Each array is its start value overwritten, in list order,
    by the values carried under its name; flag and key stay. -/
theorem foldlM_dbToRawStep {values : List KVPair}
    (hv : ∀ p ∈ values, FieldPair kFieldSize p) (tuple : Tuple) :
    ∃ raw, values.foldlM dbToRawStep tuple = .returned raw ∧
      raw.deleted = tuple.deleted ∧ raw.key = tuple.key ∧
      ∀ i, (raw.fields i).str =
        (valuesOf (fieldName i) values).foldl overwrite (tuple.fields i).str := by
  induction values generalizing tuple with
  | nil => exact ⟨tuple, rfl, rfl, rfl, fun _ => rfl⟩
  | cons p values ih =>
    obtain ⟨name, v⟩ := p
    have hp := hv (name, v) (by simp)
    obtain ⟨i, rfl⟩ : ∃ i : Fin kNumOfFields, name = fieldName i := hp.name
    obtain ⟨raw, hraw, hdel, hkey, hstr⟩ :=
      ih (fun q hq => hv q (by simp [hq])) (tuple.copyTo i v hp.bounded)
    refine ⟨raw, ?_, hdel, hkey, fun j => ?_⟩
    · rw [List.foldlM_cons, dbToRawStep_fieldName tuple i hp.bounded, Outcome.returned_bind]
      exact hraw
    · rw [hstr j, str_copyTo, valuesOf_cons]
      by_cases h : i = j
      · simp [h]
      · simp [h, fieldName_inj, Fin.val_inj]

theorem dbToRaw_spec {values : List KVPair} (hv : ∀ p ∈ values, FieldPair kFieldSize p) :
    ∃ raw, dbToRaw values = .returned raw ∧ raw.deleted = false ∧ raw.key = 0 ∧
      ∀ i, (raw.fields i).str =
        (valuesOf (fieldName i) values).foldl overwrite (List.replicate kFieldSize 0) :=
  foldlM_dbToRawStep hv {}

/-! ### The decoder -/

/-- The pair `RawToDB` appends for field `i` when its `strlen` is `n`. -/
def decodedPair (tuple : Tuple) (i : Fin kNumOfFields) (n : Nat) : Option KVPair :=
  if n > 0 then some (fieldName i, (tuple.memoryFrom i).take n) else none

theorem foldlM_rawToDBStep {tuple : Tuple} {len : Fin kNumOfFields → Nat}
    (hlen : ∀ i : Fin kNumOfFields, strlen (tuple.memoryFrom i) = some (len i))
    (is : List (Fin kNumOfFields)) (result : List KVPair) :
    is.foldlM (rawToDBStep tuple) result =
      .returned (result ++ is.filterMap fun i => decodedPair tuple i (len i)) := by
  induction is generalizing result with
  | nil => simp
  | cons i is ih =>
    rw [List.foldlM_cons, List.filterMap_cons, rawToDBStep, hlen i, decodedPair]
    by_cases h : len i > 0
    · simp only [h, if_true, Outcome.returned_bind]
      rw [ih, List.append_assoc, List.singleton_append]
    · simp only [h, if_false, Outcome.returned_bind]
      rw [ih]

/-- **The decoder, when every `strlen` stays inside the tuple.** -/
theorem rawToDB_eq {tuple : Tuple} {len : Fin kNumOfFields → Nat}
    (hlen : ∀ i : Fin kNumOfFields, strlen (tuple.memoryFrom i) = some (len i)) :
    rawToDB tuple =
      .returned ((List.finRange kNumOfFields).filterMap fun i => decodedPair tuple i (len i)) := by
  rw [rawToDB, foldlM_rawToDBStep hlen, List.nil_append]

theorem foldlM_rawToDBStep_undefined {tuple : Tuple} {i : Fin kNumOfFields}
    (hnone : strlen (tuple.memoryFrom i) = none) {is : List (Fin kNumOfFields)} (hi : i ∈ is)
    (result : List KVPair) : is.foldlM (rawToDBStep tuple) result = .undefined := by
  induction is generalizing result with
  | nil => cases hi
  | cons j is ih =>
    rw [List.foldlM_cons]
    rcases List.mem_cons.mp hi with rfl | hi
    · rw [rawToDBStep, hnone, Outcome.undefined_bind]
    · cases hj : strlen (tuple.memoryFrom j) with
      | none => rw [rawToDBStep, hj, Outcome.undefined_bind]
      | some n =>
        rw [rawToDBStep, hj]
        by_cases hn : n > 0
        · simp only [hn, if_true, Outcome.returned_bind]
          exact ih hi _
        · simp only [hn, if_false, Outcome.returned_bind]
          exact ih hi _

theorem rawToDB_undefined {tuple : Tuple} {i : Fin kNumOfFields}
    (hnone : strlen (tuple.memoryFrom i) = none) : rawToDB tuple = .undefined :=
  foldlM_rawToDBStep_undefined hnone (List.mem_finRange i) []

theorem exists_strlen_of_rawToDB {tuple : Tuple} {r : List KVPair}
    (h : rawToDB tuple = .returned r) :
    ∃ len : Fin kNumOfFields → Nat,
      (∀ i : Fin kNumOfFields, strlen (tuple.memoryFrom i) = some (len i)) ∧
      r = (List.finRange kNumOfFields).filterMap fun i => decodedPair tuple i (len i) := by
  have hsome : ∀ i : Fin kNumOfFields, ∃ n, strlen (tuple.memoryFrom i) = some n := by
    intro i
    cases hi : strlen (tuple.memoryFrom i) with
    | none => rw [rawToDB_undefined hi] at h; cases h
    | some n => exact ⟨n, rfl⟩
  choose len hlen using hsome
  refine ⟨len, hlen, ?_⟩
  rw [rawToDB_eq hlen] at h
  exact (Outcome.returned.inj h).symm

/-! ### Tuples written from distinct names -/

/-- The array that holds `v` and NULs up to its end. -/
def padded (v : Str) : List Byte := v ++ List.replicate (kFieldSize - v.length) 0

theorem overwrite_zeros {v : Str} (hv : NulFree v) :
    overwrite (List.replicate kFieldSize 0) v = padded v := by
  rw [overwrite, strncpy_of_nulFree hv, List.drop_replicate, padded]

/-- What a tuple of distinct field values holds. -/
structure Holds (tuple : Tuple) (values : List KVPair) : Prop where
  carried : ∀ (i : Fin kNumOfFields) (v : Str), (fieldName i, v) ∈ values →
    (tuple.fields i).str = padded v
  absent : ∀ i : Fin kNumOfFields, fieldName i ∉ values.map Prod.fst →
    (tuple.fields i).str = List.replicate kFieldSize 0

theorem valuesOf_of_mem {values : List KVPair} (hd : (values.map Prod.fst).Nodup)
    {name v : Str} (h : (name, v) ∈ values) : valuesOf name values = [v] := by
  induction values with
  | nil => cases h
  | cons p values ih =>
    obtain ⟨hp, hd⟩ := List.nodup_cons.mp (List.map_cons ▸ hd)
    rw [valuesOf_cons]
    rcases List.mem_cons.mp h with rfl | h
    · have hrest : valuesOf name values = [] := by
        rw [valuesOf, List.map_eq_nil_iff, List.filter_eq_nil_iff]
        intro q hq heq
        exact hp (by simpa using ⟨q.2, (decide_eq_true_eq.mp heq) ▸ hq⟩)
      rw [if_pos rfl, hrest]
    · have hne : p.1 ≠ name := fun heq => hp (heq ▸ List.mem_map_of_mem (f := Prod.fst) h)
      rw [if_neg hne, ih hd h]

theorem valuesOf_of_notMem {values : List KVPair} {name : Str}
    (h : name ∉ values.map Prod.fst) : valuesOf name values = [] := by
  rw [valuesOf, List.map_eq_nil_iff, List.filter_eq_nil_iff]
  intro q hq heq
  exact h ((decide_eq_true_eq.mp heq) ▸ List.mem_map_of_mem (f := Prod.fst) hq)

theorem dbToRaw_holds {values : List KVPair} (hd : (values.map Prod.fst).Nodup)
    (hv : ∀ p ∈ values, FieldPair kFieldSize p) :
    ∃ raw, dbToRaw values = .returned raw ∧ raw.deleted = false ∧ raw.key = 0 ∧
      Holds raw values := by
  obtain ⟨raw, hraw, hdel, hkey, hstr⟩ := dbToRaw_spec hv
  refine ⟨raw, hraw, hdel, hkey, fun i v hmem => ?_, fun i hmem => ?_⟩
  · rw [hstr i, valuesOf_of_mem hd hmem]
    exact overwrite_zeros (hv _ hmem).nulFree
  · rw [hstr i, valuesOf_of_notMem hmem]
    rfl

theorem strlen_of_zero {tuple : Tuple} {i : Fin kNumOfFields}
    (h : (tuple.fields i).str = List.replicate kFieldSize 0) :
    strlen (tuple.memoryFrom i) = some 0 := by
  rw [tuple.memoryFrom_succ i, h]
  exact strlen_zero_cons _

theorem strlen_of_short {tuple : Tuple} {i : Fin kNumOfFields} {v : Str} (hv : NulFree v)
    (hlt : v.length < kFieldSize) (h : (tuple.fields i).str = padded v) :
    strlen (tuple.memoryFrom i) = some v.length := by
  obtain ⟨n, hn⟩ : ∃ n, kFieldSize - v.length = n + 1 := ⟨kFieldSize - v.length - 1, by omega⟩
  rw [tuple.memoryFrom_succ i, h, padded, hn, List.append_assoc, List.replicate_succ,
    List.cons_append, strlen_append_of_nulFree hv, strlen_zero_cons]
  simp

theorem strlen_of_full {tuple : Tuple} {i : Fin kNumOfFields} {v : Str} (hv : NulFree v)
    (hfull : v.length = kFieldSize) (h : (tuple.fields i).str = padded v) :
    strlen (tuple.memoryFrom i) =
      (strlen (tuple.memoryFrom (i + 1))).map (· + kFieldSize) := by
  rw [tuple.memoryFrom_succ i, h, padded, hfull, Nat.sub_self, List.replicate_zero,
    List.append_nil, strlen_append_of_nulFree hv, hfull]

theorem strlen_pos_of_padded {tuple : Tuple} {i : Fin kNumOfFields} {name v : Str}
    (hv : FieldPair kFieldSize (name, v)) (h : (tuple.fields i).str = padded v) {n : Nat}
    (hn : strlen (tuple.memoryFrom i) = some n) : 0 < n := by
  rcases Nat.lt_or_eq_of_le hv.bounded with hshort | hfull
  · rw [strlen_of_short hv.nulFree hshort h] at hn
    exact Option.some.inj hn ▸ hv.nonempty
  · rw [strlen_of_full hv.nulFree hfull h] at hn
    obtain ⟨m, -, rfl⟩ := Option.map_eq_some_iff.mp hn
    exact Nat.add_pos_right m (by decide)

theorem take_of_padded {tuple : Tuple} {i : Fin kNumOfFields} {v : Str}
    (h : (tuple.fields i).str = padded v) : (tuple.memoryFrom i).take v.length = v := by
  rw [tuple.memoryFrom_succ i, h, padded, List.append_assoc]
  exact List.take_left' rfl

/-! ### The round trip -/

/-- The pairs of `values`, ordered by field index. -/
def inFieldOrder (values : List KVPair) : List KVPair :=
  (List.finRange kNumOfFields).filterMap fun i : Fin kNumOfFields =>
    values.find? fun p => p.1 = fieldName i

/-- Decoding the encoded list gives its own pairs, ordered by field index. -/
def RoundTrips (values : List KVPair) : Prop :=
  ∃ r, (dbToRaw values >>= rawToDB) = .returned r ∧ r.Perm values ∧
    (r.map Prod.fst).Sublist ((List.finRange kNumOfFields).map fun i : Fin kNumOfFields => fieldName i)

/-- Every full value sits before a field that exists and is not carried. -/
def Separated (values : List KVPair) : Prop :=
  ∀ (i : Fin kNumOfFields) (v : Str), (fieldName i, v) ∈ values → v.length = kFieldSize →
    (i : Nat) + 1 < kNumOfFields ∧ fieldName (i + 1) ∉ values.map Prod.fst

theorem find?_of_mem {values : List KVPair} (hd : (values.map Prod.fst).Nodup)
    {p : KVPair} (h : p ∈ values) : values.find? (fun q => q.1 = p.1) = some p := by
  induction values with
  | nil => cases h
  | cons q values ih =>
    obtain ⟨hq, hd⟩ := List.nodup_cons.mp (List.map_cons ▸ hd)
    rcases List.mem_cons.mp h with rfl | h
    · simp
    · have hne : q.1 ≠ p.1 := fun heq => hq (heq ▸ List.mem_map_of_mem h)
      rw [List.find?_cons_of_neg (by simpa using hne), ih hd h]

theorem mem_inFieldOrder {values : List KVPair} (hd : (values.map Prod.fst).Nodup)
    (hn : ∀ p ∈ values, ∃ i : Fin kNumOfFields, p.1 = fieldName i) {p : KVPair} :
    p ∈ inFieldOrder values ↔ p ∈ values := by
  rw [inFieldOrder, List.mem_filterMap]
  constructor
  · rintro ⟨i, -, hfind⟩
    exact List.mem_of_find?_eq_some hfind
  · intro hp
    obtain ⟨i, hi⟩ := hn p hp
    exact ⟨i, List.mem_finRange i, hi ▸ find?_of_mem hd hp⟩

theorem inFieldOrder_sublist (values : List KVPair) :
    ((inFieldOrder values).map Prod.fst).Sublist
      ((List.finRange kNumOfFields).map fun i : Fin kNumOfFields => fieldName i) := by
  have hgen : ∀ is : List (Fin kNumOfFields),
      ((is.filterMap fun i : Fin kNumOfFields =>
          values.find? fun p => p.1 = fieldName i).map Prod.fst).Sublist
        (is.map fun i : Fin kNumOfFields => fieldName i) := by
    intro is
    induction is with
    | nil => exact List.Sublist.slnil
    | cons i is ih =>
      rw [List.filterMap_cons]
      cases hfind : values.find? fun p => p.1 = fieldName i with
      | none => exact ih.trans (List.sublist_cons_self _ _)
      | some p =>
        have hname : p.1 = fieldName i := by simpa using List.find?_some hfind
        rw [List.map_cons, List.map_cons, hname]
        exact ih.cons_cons _
  exact hgen _

theorem nodup_fieldNames :
    ((List.finRange kNumOfFields).map fun i : Fin kNumOfFields => fieldName i).Nodup :=
  (List.nodup_finRange _).map fun _ _ h => Fin.ext (fieldName_injective h)

theorem inFieldOrder_perm {values : List KVPair} (hd : (values.map Prod.fst).Nodup)
    (hn : ∀ p ∈ values, ∃ i : Fin kNumOfFields, p.1 = fieldName i) :
    (inFieldOrder values).Perm values := by
  have hnames : ((inFieldOrder values).map Prod.fst).Nodup :=
    (inFieldOrder_sublist values).nodup nodup_fieldNames
  rw [List.perm_ext_iff_of_nodup hnames.of_map hd.of_map]
  exact fun p => mem_inFieldOrder hd hn

theorem rawToDB_of_separated {values : List KVPair} {raw : Tuple}
    (hd : (values.map Prod.fst).Nodup) (hv : ∀ p ∈ values, FieldPair kFieldSize p)
    (hraw : Holds raw values) (hsep : Separated values) :
    rawToDB raw = .returned (inFieldOrder values) := by
  have hdecoded : ∀ i : Fin kNumOfFields, ∃ n, strlen (raw.memoryFrom i) = some n ∧
      decodedPair raw i n = values.find? fun p => p.1 = fieldName i := by
    intro i
    by_cases hmem : fieldName i ∈ values.map Prod.fst
    · obtain ⟨⟨name, v⟩, hp, hname⟩ := List.mem_map.mp hmem
      obtain rfl : name = fieldName i := hname
      have hpair := hv _ hp
      have hstr := hraw.carried i v hp
      have hfind : values.find? (fun p => p.1 = fieldName i) = some (fieldName i, v) :=
        find?_of_mem hd hp
      refine ⟨v.length, ?_, ?_⟩
      · rcases Nat.lt_or_eq_of_le hpair.bounded with hshort | hfull
        · exact strlen_of_short hpair.nulFree hshort hstr
        · -- the next array is empty: its first byte ends the full one
          obtain ⟨hnext, habsent⟩ := hsep i v hp hfull
          have hzero := strlen_of_zero (hraw.absent ⟨i + 1, hnext⟩ habsent)
          rw [strlen_of_full hpair.nulFree hfull hstr, hzero, hfull]
          simp
      · rw [decodedPair, if_pos hpair.nonempty, take_of_padded hstr, hfind]
    · refine ⟨0, strlen_of_zero (hraw.absent i hmem), ?_⟩
      rw [decodedPair, if_neg (by simp), eq_comm, List.find?_eq_none]
      intro p hp heq
      exact hmem ((decide_eq_true_eq.mp heq) ▸ List.mem_map_of_mem hp)
  choose len hlen hpair using hdecoded
  rw [rawToDB_eq hlen, inFieldOrder]
  simp only [hpair]

theorem decoded_length_le {values : List KVPair} {raw : Tuple}
    (hv : ∀ p ∈ values, FieldPair kFieldSize p) {len : Fin kNumOfFields → Nat}
    (hlen : ∀ i : Fin kNumOfFields, strlen (raw.memoryFrom i) = some (len i))
    (hperm : ((List.finRange kNumOfFields).filterMap
      fun i : Fin kNumOfFields => decodedPair raw i (len i)).Perm values)
    (i : Fin kNumOfFields) : len i ≤ kFieldSize := by
  rcases Nat.eq_zero_or_pos (len i) with hzero | hpos
  · rw [hzero]
    exact Nat.zero_le _
  · have hmem : (fieldName i, (raw.memoryFrom i).take (len i)) ∈ values := by
      refine hperm.subset (List.mem_filterMap.mpr ⟨i, List.mem_finRange i, ?_⟩)
      rw [decodedPair, if_pos hpos]
    have hbounded : ((raw.memoryFrom i).take (len i)).length ≤ kFieldSize :=
      (hv _ hmem).bounded
    rwa [List.length_take, Nat.min_eq_left (strlen_le_length (hlen i))] at hbounded

/-- A decoder that gives the values back never read on into a carried field. -/
theorem separated_of_decoded {values r : List KVPair} {raw : Tuple}
    (hv : ∀ p ∈ values, FieldPair kFieldSize p) (hraw : Holds raw values)
    (hr : rawToDB raw = .returned r) (hperm : r.Perm values) : Separated values := by
  intro i v hmem hfull
  obtain ⟨len, hlen, rfl⟩ := exists_strlen_of_rawToDB hr
  have hi : (strlen (raw.memoryFrom (i + 1))).map (· + kFieldSize) = some (len i) := by
    rw [← strlen_of_full (hv _ hmem).nulFree hfull (hraw.carried i v hmem), hlen i]
  obtain ⟨n, hn, hlen_i⟩ := Option.map_eq_some_iff.mp hi
  have hle : len i ≤ kFieldSize := decoded_length_le hv hlen hperm i
  have hnext : (i : Nat) + 1 < kNumOfFields := by
    by_contra hge
    have hend : (i : Nat) + 1 = kNumOfFields := by omega
    rw [hend, Tuple.memoryFrom_end] at hn
    cases hn
  refine ⟨hnext, fun hcarried => ?_⟩
  -- a carried field behind the full one adds its own bytes to the length found
  obtain ⟨⟨name, w⟩, hw, hname⟩ := List.mem_map.mp hcarried
  obtain rfl : name = fieldName (i + 1) := hname
  have hpos : 0 < n := strlen_pos_of_padded (hv _ hw) (hraw.carried ⟨i + 1, hnext⟩ w hw) hn
  omega

/-- **The codec's exact round trip.**  For distinct field names and NUL-free
    values of length 1 to `kFieldSize`, decoding undoes encoding exactly when
    no value of length `kFieldSize` is the last field's or has a carried field
    directly behind it. -/
theorem roundTrips_iff {values : List KVPair} (hd : (values.map Prod.fst).Nodup)
    (hv : ∀ p ∈ values, FieldPair kFieldSize p) :
    RoundTrips values ↔ Separated values := by
  obtain ⟨raw, hraw, -, -, hholds⟩ := dbToRaw_holds hd hv
  have hbind : (dbToRaw values >>= rawToDB) = rawToDB raw := by
    rw [hraw, Outcome.returned_bind]
  rw [RoundTrips, hbind]
  constructor
  · rintro ⟨r, hr, hperm, -⟩
    exact separated_of_decoded hv hholds hr hperm
  · intro hsep
    have hn : ∀ p ∈ values, ∃ i : Fin kNumOfFields, p.1 = fieldName i := fun p hp =>
      (hv p hp).name
    exact ⟨inFieldOrder values, rawToDB_of_separated hd hv hholds hsep,
      inFieldOrder_perm hd hn, inFieldOrder_sublist values⟩

/-- The exact condition at work: one full field with an empty neighbour. -/
theorem roundTrips_iff_full_alone :
    RoundTrips [(fieldName 3, List.replicate kFieldSize 97)] ↔
      Separated [(fieldName 3, List.replicate kFieldSize 97)] :=
  roundTrips_iff (by decide) fun p hp => by
    obtain rfl := List.mem_singleton.mp hp
    exact ⟨⟨⟨3, by decide⟩, rfl⟩, by decide, by decide, by decide⟩

def fullThenData : List KVPair :=
  [(fieldName 0, List.replicate kFieldSize 97), (fieldName 1, [98])]

/-- **A full field swallows its neighbour.**  The names are distinct and the
    values within the bound that `DBToRaw` asserts, and still the list is not
    read back: field 0 comes back with the byte of field 1 at its end. -/
theorem not_roundTrips_fullThenData :
    (fullThenData.map Prod.fst).Nodup ∧ (∀ p ∈ fullThenData, FieldPair kFieldSize p) ∧
      (dbToRaw fullThenData >>= rawToDB) =
        .returned [(fieldName 0, List.replicate kFieldSize 97 ++ [98]), (fieldName 1, [98])] ∧
      ¬RoundTrips fullThenData := by
  have hdecoded : (dbToRaw fullThenData >>= rawToDB) =
      .returned [(fieldName 0, List.replicate kFieldSize 97 ++ [98]), (fieldName 1, [98])] := by
    decide +kernel
  refine ⟨by decide, ?_, hdecoded, ?_⟩
  · intro p hp
    rcases List.mem_pair.mp hp with rfl | rfl
    · exact ⟨⟨⟨0, by decide⟩, rfl⟩, by decide, by decide, by decide⟩
    · exact ⟨⟨⟨1, by decide⟩, rfl⟩, by decide, by decide, by decide⟩
  · rintro ⟨r, hr, hperm, -⟩
    obtain rfl := Outcome.returned.inj (hdecoded.symm.trans hr)
    have hmem : (fieldName 0, List.replicate kFieldSize 97 ++ [98]) ∈ fullThenData :=
      hperm.subset (by simp)
    revert hmem
    decide +kernel

end NvrecYcsb.TupleCodec
