/-
  NvrecYcsb/NvmDbScan.lean
  ========================
  **The range scan of the in-memory store** (`NVMDB::Scan` of `db/nvmdb.cc`).

  `Scan` finds its first record as `Read` does and then walks the table's map
  with the iterator it found.  Two things of its contract (`core/db.h`) are
  missing: the path that found the record ends without a `return`, which is
  undefined behaviour for a function of type `int`, and `fields` is never read.

  * `scanLoop_eq`, `iteratorTo_eq`: the loop takes the first entries of the map
    from the key on;
  * `scan_of_record`: what `Scan` does when it finds the record;
  * `scan_meetsContract_iff`: the contract is met exactly when there is none;
  * `scan_records_iff`: when the records appended are those `Read` returns.
-/
import NvrecYcsb.NvmDb

namespace NvrecYcsb.NvmDb

open CppRuntime RecoveryDefs RecoveryInterface TupleCodec

/-- A `Table::iterator`: the entries from it up to `std::end`, in key order. -/
abbrev Iterator := List (Str × List KVPair)

/-- The iterator that `FindByTableKey` returns for a key of the table. -/
def iteratorTo (myTable : Table) (key : Str) : Iterator :=
  myTable.toList.dropWhile fun entry => entry.1 ≠ key

/-- The loop of `Scan`, with the number of turns left. -/
def scanLoop : Nat → Iterator → List (List KVPair) → List (List KVPair)
  | 0, _, result => result
  | _ + 1, [], result => result -- `key_it == end_it`
  | turns + 1, entry :: keyIt, result => scanLoop turns keyIt (result ++ [entry.2])

namespace NVMDB

variable {σ : Type}

/-- `Scan`.  The path that found the key falls off the end of the function. -/
def scan (s : NVMDB σ) (table key : Str) (recordCount : Int) (_fields : Option (List Str))
    (result : List (List KVPair)) : Outcome Int × List (List KVPair) :=
  match s.findByTableKey table key with
  | none => (.returned kErrorNoData, result)
  | some (myTable, _) => (.undefined, scanLoop recordCount.toNat (iteratorTo myTable key) result)

end NVMDB

/-! ### The loop over the map -/

theorem scanLoop_eq (turns : Nat) (keyIt : Iterator) (result : List (List KVPair)) :
    scanLoop turns keyIt result = result ++ (keyIt.take turns).map Prod.snd := by
  induction turns generalizing keyIt result with
  | zero => simp [scanLoop]
  | succ turns ih =>
    cases keyIt with
    | nil => simp [scanLoop]
    | cons entry keyIt => simp [scanLoop, ih]

/-- The keys of a table from `key` on, ascending. -/
def keysFrom (myTable : Table) (key : Str) : List Str :=
  myTable.keys.filter fun k => (compare key k).isLE

theorem mem_keysFrom {myTable : Table} {key k : Str} :
    k ∈ keysFrom myTable key ↔ k ∈ myTable ∧ (compare key k).isLE := by
  simp [keysFrom]

/-- In an ascending list that has the key, going forward to the key leaves out
    the smaller keys and no other. -/
theorem dropWhile_ne_eq_filter {entries : Iterator} {key : Str}
    (hsorted : entries.Pairwise fun a b => compare a.1 b.1 = .lt)
    (hkey : key ∈ entries.map Prod.fst) :
    (entries.dropWhile fun entry => entry.1 ≠ key) =
      entries.filter fun entry => (compare key entry.1).isLE := by
  induction entries with
  | nil => cases hkey
  | cons entry entries ih =>
    obtain ⟨hlt, hsorted⟩ := List.pairwise_cons.mp hsorted
    by_cases h : entry.1 = key
    · subst h
      have hall : ∀ e ∈ entries, (compare entry.1 e.1).isLE = true := by
        intro e he
        simp [hlt e he]
      simp [List.filter_eq_self.mpr hall]
    · have hmem : key ∈ entries.map Prod.fst := by
        rcases List.mem_cons.mp hkey with heq | hmem
        · exact absurd heq.symm h
        · exact hmem
      obtain ⟨e, he, rfl⟩ := List.mem_map.mp hmem
      have hgt : compare e.1 entry.1 = .gt := Std.OrientedCmp.gt_of_lt (hlt e he)
      rw [List.dropWhile_cons_of_pos (by simpa using h), List.filter_cons_of_neg (by simp [hgt])]
      exact ih hsorted hmem

theorem iteratorTo_eq {myTable : Table} {key : Str} (h : key ∈ myTable) :
    iteratorTo myTable key =
      myTable.toList.filter fun entry => (compare key entry.1).isLE := by
  apply dropWhile_ne_eq_filter Std.ExtTreeMap.ordered_keys_toList
  rw [Std.ExtTreeMap.map_fst_toList_eq_keys]
  exact Std.ExtTreeMap.mem_keys.mpr h

/-! ### The contract -/

variable {σ : Type}

/-- What the record of a key gives for the fields asked for. -/
def readBack (s : NVMDB σ) (table : Str) (fields : Option (List Str)) (key : Str) :
    List KVPair :=
  (s.read table key fields []).2

/-- The records that a scan is to append. -/
def wanted (s : NVMDB σ) (table key : Str) (recordCount : Int) (fields : Option (List Str)) :
    List (List KVPair) :=
  ((keysFrom (s.tables[table]?.getD ∅) key).take recordCount.toNat).map (readBack s table fields)

/-- The contract of `Scan` in `core/db.h`: success with the records wanted for a
    key of the table, and `kErrorNoData` with nothing appended for any other. -/
def MeetsScanContract (s : NVMDB σ) (table key : Str) (recordCount : Int)
    (fields : Option (List Str)) (result : List (List KVPair))
    (out : Outcome Int × List (List KVPair)) : Prop :=
  if (record s.tables table key).isSome then
    out = (.returned kOK, result ++ wanted s table key recordCount fields)
  else out = (.returned kErrorNoData, result)

theorem readBack_eq {s : NVMDB σ} {table key : Str} {values : List KVPair}
    (h : record s.tables table key = some values) (fields : Option (List Str)) :
    readBack s table fields key =
      match fields with
      | none => values
      | some fields => filterByFields values fields := by
  rw [readBack, NVMDB.read, findByTableKey_eq, h]
  cases fields <;> rfl

theorem scan_of_no_record {s : NVMDB σ} {table key : Str}
    (h : record s.tables table key = none) (recordCount : Int) (fields : Option (List Str))
    (result : List (List KVPair)) :
    s.scan table key recordCount fields result = (.returned kErrorNoData, result) := by
  rw [NVMDB.scan, findByTableKey_eq, h]
  rfl

/-- **`Scan` on a key of the table.**  It appends the records from the key on,
    each whole whatever fields are asked for, and does not return. -/
theorem scan_of_record {s : NVMDB σ} {table key : Str}
    (h : (record s.tables table key).isSome) (recordCount : Int) (fields : Option (List Str))
    (result : List (List KVPair)) :
    s.scan table key recordCount fields result =
      (.undefined, result ++ wanted s table key recordCount none) := by
  obtain ⟨values, hrecord⟩ := Option.isSome_iff_exists.mp h
  have hmem : key ∈ s.tables[table]?.getD ∅ := by
    rw [record] at h
    exact Std.ExtTreeMap.mem_iff_isSome_getElem?.mpr h
  rw [NVMDB.scan, findByTableKey_eq, hrecord]
  simp only [Option.map_some, scanLoop_eq, iteratorTo_eq hmem, wanted, keysFrom]
  -- the entries of the map are its keys with the records that Read finds for them
  have hentries : ∀ entry ∈ (s.tables[table]?.getD ∅).toList,
      readBack s table none entry.1 = entry.2 := by
    intro entry hentry
    apply readBack_eq
    exact Std.ExtTreeMap.mem_toList_iff_getElem?_eq_some.mp hentry
  rw [← Std.ExtTreeMap.map_fst_toList_eq_keys, List.filter_map, ← List.map_take, List.map_map]
  congr 2
  apply List.map_congr_left
  intro entry hentry
  exact (hentries entry (List.mem_filter.mp (List.mem_of_mem_take hentry)).1).symm

/-- **`Scan` keeps its contract exactly on the keys that have no record.** -/
theorem scan_meetsContract_iff (s : NVMDB σ) (table key : Str) (recordCount : Int)
    (fields : Option (List Str)) (result : List (List KVPair)) :
    MeetsScanContract s table key recordCount fields result
        (s.scan table key recordCount fields result) ↔
      record s.tables table key = none := by
  rw [MeetsScanContract]
  cases hrecord : record s.tables table key with
  | none => simp [scan_of_no_record hrecord]
  | some values =>
    have h : (record s.tables table key).isSome := by rw [hrecord]; rfl
    rw [scan_of_record h]
    simp

/-- Filtering by the fields leaves a record whole exactly when all its fields are
    asked for. -/
theorem filterByFields_eq_self_iff (values : List KVPair) (fields : List Str) :
    filterByFields values fields = values ↔ ∀ p ∈ values, p.1 ∈ fields := by
  rw [filterByFields, List.filter_eq_self]
  simp

/-- **The records of a scan, its status aside.**  They are the ones `Read` returns
    exactly when no record on the way has a field that was not asked for. -/
theorem scan_records_iff {s : NVMDB σ} {table key : Str}
    (h : (record s.tables table key).isSome) (recordCount : Int) (fields : List Str)
    (result : List (List KVPair)) :
    (s.scan table key recordCount (some fields) result).2 =
        result ++ wanted s table key recordCount (some fields) ↔
      ∀ k ∈ (keysFrom (s.tables[table]?.getD ∅) key).take recordCount.toNat,
        ∀ values, record s.tables table k = some values → ∀ p ∈ values, p.1 ∈ fields := by
  rw [scan_of_record h, List.append_right_inj, wanted, wanted, List.map_inj_left]
  refine forall₂_congr fun k hk => ?_
  have hmem := (mem_keysFrom.mp (List.mem_of_mem_take hk)).1
  obtain ⟨values, hrecord⟩ :=
    Option.isSome_iff_exists.mp (Std.ExtTreeMap.mem_iff_isSome_getElem?.mp hmem)
  have hrecord : record s.tables table k = some values := hrecord
  rw [readBack_eq hrecord, readBack_eq hrecord, eq_comm, filterByFields_eq_self_iff, hrecord]
  simp

/-- One record of two fields. -/
def twoFields : NVMDB Unit :=
  ⟨atTable ∅ (lit ['t']) fun myTable =>
    myTable.insert (lit ['1']) [(fieldName 0, [97]), (fieldName 1, [98])], ()⟩

/-- **A scan of a single record.**  Read for `field1` returns one pair; Scan
    appends both and runs off its end. -/
theorem scan_twoFields :
    twoFields.scan (lit ['t']) (lit ['1']) 1 (some [fieldName 1]) [] =
        (.undefined, [[(fieldName 0, [97]), (fieldName 1, [98])]]) ∧
      twoFields.read (lit ['t']) (lit ['1']) (some [fieldName 1]) [] =
        (kOK, [(fieldName 1, [98])]) ∧
      ¬ MeetsScanContract twoFields (lit ['t']) (lit ['1']) 1 (some [fieldName 1]) []
        (twoFields.scan (lit ['t']) (lit ['1']) 1 (some [fieldName 1]) []) := by
  have hscan : twoFields.scan (lit ['t']) (lit ['1']) 1 (some [fieldName 1]) [] =
      (.undefined, [[(fieldName 0, [97]), (fieldName 1, [98])]]) := by decide +kernel
  refine ⟨hscan, by decide +kernel, fun h => ?_⟩
  rw [MeetsScanContract, if_pos (by decide +kernel), hscan] at h
  cases congrArg Prod.fst h

end NvrecYcsb.NvmDb
