/-
  NvrecYcsb/NvmDb.lean
  ====================
  **The in-memory store in front of a recovery engine** (`db/nvmdb.{h,cc}`).

  Every operation changes `tables_` first and calls the engine after that, with
  the key converted by `std::stoul` on the way; nothing is undone when the key
  does not convert, the tuple cannot be built or the engine fails.  The store is
  generic in the engine.  Each operation holds the mutex from start to end, so
  the operations of any number of clients happen one after the other.

  * `lookup_foldl_mergeValue`: the merge loop of `Update`, read field by field;
  * `record_tablesAfter`: what an operation does to the records, however it ends;
  * `tables_of_failed_iff`: a call that does not return `kOK` leaves the tables
    alone exactly when there was nothing to change.
-/
import NvrecYcsb.TupleCodec
import NvrecYcsb.NvmBlk

namespace NvrecYcsb.NvmDb

open CppRuntime RecoveryDefs RecoveryInterface TupleCodec
open NvmBlk (BlkEnv NVMBlkEngine)

def kOK : Int := 0
def kErrorNoData : Int := 1
def kErrorConflict : Int := 2

abbrev Table := Std.ExtTreeMap Str (List KVPair)
abbrev Tables := Std.ExtTreeMap Str Table

/-- The members of `NVMDB`, less its mutex. -/
structure NVMDB (σ : Type) where
  tables : Tables
  recEngine : σ

/-- A turn of the merge loop of `Update`: the first pair of the name gets the
    value, and the pair is appended when there is none. -/
def mergeValue (storedValues : List KVPair) (value : KVPair) : List KVPair :=
  match storedValues.findIdx? fun kvpair => kvpair.1 = value.1 with
  | some i => storedValues.modify i fun kvpair => (kvpair.1, value.2)
  | none => storedValues ++ [value]

def filterByFields (values : List KVPair) (fields : List Str) : List KVPair :=
  values.filter fun value => (fields.find? fun field => value.1 = field).isSome

/-- Change `tables_[table]`, which creates the table when it is not there. -/
def atTable (tables : Tables) (table : Str) (f : Table → Table) : Tables :=
  tables.insert table (f (tables[table]?.getD ∅))

namespace NVMDB

variable {ω σ : Type} (engine : RecoveryEngine ω σ)

/-- `FindByTableKey`: what the two iterators point to. -/
def findByTableKey (s : NVMDB σ) (table key : Str) : Option (Table × List KVPair) :=
  match s.tables[table]? with
  | none => none
  | some myTable =>
    match myTable[key]? with
    | none => none
    | some values => some (myTable, values)

/-- `Read`; `none` for `fields` is the null pointer. -/
def read (s : NVMDB σ) (table key : Str) (fields : Option (List Str)) (result : List KVPair) :
    Int × List KVPair :=
  match s.findByTableKey table key with
  | none => (kErrorNoData, result)
  | some (_, values) =>
    match fields with
    | none => (kOK, values)
    | some fields => (kOK, filterByFields values fields)

/-- The end of the three operations: convert the key, call the engine, and turn
    its status into a code. -/
def persist (env : ω) (s : NVMDB σ) (key : Str) (call : UInt64 → PersistCall) :
    Outcome Int × NVMDB σ :=
  andThen (stoul key, s) fun k s =>
    match engine.call env s.recEngine (call k) with
    | (result, recEngine) =>
      andThen (result, { s with recEngine := recEngine }) fun status s =>
        (.returned (if status = .kSuccess then kOK else kErrorConflict), s)

def update (env : ω) (s : NVMDB σ) (table key : Str) (values : List KVPair) :
    Outcome Int × NVMDB σ :=
  match s.findByTableKey table key with
  | none => (.returned kErrorNoData, s)
  | some (_, storedValues) =>
    let tables := atTable s.tables table fun myTable =>
      myTable.insert key (values.foldl mergeValue storedValues)
    { s with tables := tables }.persist engine env key fun k => .update k values

def insert (env : ω) (s : NVMDB σ) (table key : Str) (values : List KVPair) :
    Outcome Int × NVMDB σ :=
  let tables := atTable s.tables table fun myTable => myTable.insert key values
  { s with tables := tables }.persist engine env key fun k => .update k values

def delete (env : ω) (s : NVMDB σ) (table key : Str) : Outcome Int × NVMDB σ :=
  match s.findByTableKey table key with
  | none => (.returned kErrorNoData, s)
  | some _ =>
    let tables := atTable s.tables table fun myTable => myTable.erase key
    { s with tables := tables }.persist engine env key .delete

end NVMDB

inductive Op where
  | insert (table key : Str) (values : List KVPair)
  | update (table key : Str) (values : List KVPair)
  | delete (table key : Str)

namespace NVMDB

variable {ω σ : Type} (engine : RecoveryEngine ω σ)

def apply (env : ω) (s : NVMDB σ) : Op → Outcome Int × NVMDB σ
  | .insert table key values => s.insert engine env table key values
  | .update table key values => s.update engine env table key values
  | .delete table key => s.delete engine env table key

def step (s : NVMDB σ) (i : ω × Op) : NVMDB σ := (s.apply engine i.1 i.2).2

end NVMDB

/-! ### The merge loop -/

@[simp] theorem mergeValue_nil (value : KVPair) : mergeValue [] value = [value] := rfl

theorem mergeValue_cons (p : KVPair) (storedValues : List KVPair) (value : KVPair) :
    mergeValue (p :: storedValues) value =
      if p.1 = value.1 then (p.1, value.2) :: storedValues
      else p :: mergeValue storedValues value := by
  by_cases h : p.1 = value.1
  · simp [mergeValue, List.findIdx?_cons, h]
  · rw [mergeValue, List.findIdx?_cons, if_neg h]
    simp only [h, decide_false, Bool.false_eq_true, if_false]
    rw [mergeValue]
    cases storedValues.findIdx? fun kvpair => kvpair.1 = value.1 with
    | none => rfl
    | some i => rfl

/-- The value of the last pair of the name. -/
def lastValue (name : Str) (values : List KVPair) : Option Str := (valuesOf name values).getLast?

theorem lookup_cons_pair (name : Str) (p : KVPair) (values : List KVPair) :
    (p :: values).lookup name = if name = p.1 then some p.2 else values.lookup name := by
  obtain ⟨n, v⟩ := p
  rw [List.lookup_cons]
  by_cases h : name = n
  · simp [h]
  · simp [h, beq_false_of_ne h]

theorem lookup_mergeValue (storedValues : List KVPair) (value : KVPair) (name : Str) :
    (mergeValue storedValues value).lookup name =
      if name = value.1 then some value.2 else storedValues.lookup name := by
  induction storedValues with
  | nil => rw [mergeValue_nil, lookup_cons_pair]
  | cons p storedValues ih =>
    rw [mergeValue_cons]
    by_cases hp : p.1 = value.1
    · rw [if_pos hp, lookup_cons_pair, lookup_cons_pair, hp]
      by_cases hname : name = value.1 <;> simp [hname]
    · rw [if_neg hp, lookup_cons_pair, lookup_cons_pair, ih]
      by_cases hname : name = p.1
      · have hne : name ≠ value.1 := fun heq => hp (hname.symm.trans heq)
        rw [if_pos hname, if_neg hne, if_pos hname]
      · rw [if_neg hname, if_neg hname]

/-- **The merge loop, field by field.**  A field has the last value carried for
    it, and its old one when none is carried. -/
theorem lookup_foldl_mergeValue (values storedValues : List KVPair) (name : Str) :
    (values.foldl mergeValue storedValues).lookup name =
      (lastValue name values).or (storedValues.lookup name) := by
  induction values generalizing storedValues with
  | nil => rfl
  | cons value values ih =>
    rw [List.foldl_cons, ih, lookup_mergeValue, lastValue, lastValue, valuesOf_cons]
    by_cases h : value.1 = name
    · subst h
      rw [if_pos rfl, if_pos rfl, List.getLast?_cons]
      cases (valuesOf value.1 values).getLast? <;> simp
    · rw [if_neg h, if_neg (Ne.symm h)]

/-! ### The records of the tables -/

/-- The record of a key of a table. -/
def record (tables : Tables) (table key : Str) : Option (List KVPair) :=
  (tables[table]?.getD ∅)[key]?

theorem findByTableKey_eq {σ : Type} (s : NVMDB σ) (table key : Str) :
    s.findByTableKey table key =
      (record s.tables table key).map fun values => (s.tables[table]?.getD ∅, values) := by
  rw [NVMDB.findByTableKey, record]
  cases s.tables[table]? with
  | none => simp
  | some myTable =>
    rw [Option.getD_some]
    cases hkey : myTable[key]? <;> simp [hkey]

@[simp] theorem record_empty (table key : Str) : record ∅ table key = none := by
  simp [record]

theorem record_atTable (tables : Tables) (table table' key : Str) (f : Table → Table) :
    record (atTable tables table f) table' key =
      if table = table' then (f (tables[table]?.getD ∅))[key]? else record tables table' key := by
  by_cases h : table = table'
  · subst h
    simp [record, atTable]
  · simp [record, atTable, Std.ExtTreeMap.getElem?_insert, h]

/-- A change of one key of one table. -/
theorem record_atTable_of_key {f : Table → Table} {key : Str} {changed : Option (List KVPair)}
    (hf : ∀ (myTable : Table) (k : Str), (f myTable)[k]? = if key = k then changed else myTable[k]?)
    (tables : Tables) (table table' key' : Str) :
    record (atTable tables table f) table' key' =
      if table = table' ∧ key = key' then changed else record tables table' key' := by
  rw [record_atTable, hf]
  by_cases htable : table = table'
  · subst htable
    by_cases hkey : key = key' <;> simp [hkey, record]
  · simp [htable]

theorem record_atTable_insert (tables : Tables) (table key table' key' : Str)
    (values : List KVPair) :
    record (atTable tables table fun myTable => myTable.insert key values) table' key' =
      if table = table' ∧ key = key' then some values else record tables table' key' := by
  apply record_atTable_of_key
  intro myTable k
  simp [Std.ExtTreeMap.getElem?_insert]

theorem record_atTable_erase (tables : Tables) (table key table' key' : Str) :
    record (atTable tables table fun myTable => myTable.erase key) table' key' =
      if table = table' ∧ key = key' then none else record tables table' key' := by
  apply record_atTable_of_key
  intro myTable k
  simp [Std.ExtTreeMap.getElem?_erase]

theorem atTable_insert_eq_iff (tables : Tables) (table key : Str) (values : List KVPair) :
    (atTable tables table fun myTable => myTable.insert key values) = tables ↔
      record tables table key = some values := by
  constructor
  · intro h
    rw [← h, record_atTable_insert, if_pos ⟨rfl, rfl⟩]
  · intro h
    have htable : tables[table]? = some (tables[table]?.getD ∅) := by
      cases htable : tables[table]? with
      | none => simp [record, htable] at h
      | some myTable => rfl
    have hsame : (tables[table]?.getD ∅).insert key values = tables[table]?.getD ∅ := by
      refine Std.ExtTreeMap.ext_getElem? fun k => ?_
      rw [Std.ExtTreeMap.getElem?_insert]
      by_cases hk : key = k
      · subst hk
        rw [if_pos (Std.compare_self), ← h, record]
      · rw [if_neg fun heq => hk (Std.LawfulEqCmp.eq_of_compare heq)]
    refine Std.ExtTreeMap.ext_getElem? fun t => ?_
    rw [atTable, hsame, Std.ExtTreeMap.getElem?_insert]
    by_cases ht : table = t
    · subst ht
      rw [if_pos (Std.compare_self), ← htable]
    · rw [if_neg fun heq => ht (Std.LawfulEqCmp.eq_of_compare heq)]

/-- The tables that an operation leaves behind, however it ends. -/
def Op.tablesAfter (tables : Tables) : Op → Tables
  | .insert table key values => atTable tables table fun myTable => myTable.insert key values
  | .update table key values =>
    match record tables table key with
    | none => tables
    | some storedValues =>
      atTable tables table fun myTable =>
        myTable.insert key (values.foldl mergeValue storedValues)
  | .delete table key =>
    match record tables table key with
    | none => tables
    | some _ => atTable tables table fun myTable => myTable.erase key

def Op.table : Op → Str
  | .insert table _ _ => table
  | .update table _ _ => table
  | .delete table _ => table

def Op.key : Op → Str
  | .insert _ key _ => key
  | .update _ key _ => key
  | .delete _ key => key

/-- What an operation does to the record of its key. -/
def Op.recordAfter : Op → Option (List KVPair) → Option (List KVPair)
  | .insert _ _ values, _ => some values
  | .update _ _ values, stored => stored.map (values.foldl mergeValue)
  | .delete _ _, _ => none

/-- **An operation, record by record.**  It changes the record of its key and
    leaves every other record of every table alone. -/
theorem record_tablesAfter (tables : Tables) (op : Op) (table' key' : Str) :
    record (op.tablesAfter tables) table' key' =
      if op.table = table' ∧ op.key = key' then op.recordAfter (record tables table' key')
      else record tables table' key' := by
  -- an Update or Delete that finds no record leaves the tables as they are
  have habsent : ∀ {table key : Str}, record tables table key = none →
      ∀ f : Option (List KVPair) → Option (List KVPair), f none = none →
        record tables table' key' =
          if table = table' ∧ key = key' then f (record tables table' key')
          else record tables table' key' := by
    intro table key hrecord f hf
    by_cases hat : table = table' ∧ key = key'
    · obtain ⟨rfl, rfl⟩ := hat
      rw [if_pos ⟨rfl, rfl⟩, hrecord, hf]
    · rw [if_neg hat]
  cases op with
  | insert table key values => exact record_atTable_insert ..
  | update table key values =>
    rw [Op.tablesAfter]
    cases hrecord : record tables table key with
    | none => exact habsent hrecord (Option.map (values.foldl mergeValue)) rfl
    | some storedValues =>
      rw [record_atTable_insert]
      refine ite_congr rfl (fun hat : table = table' ∧ key = key' => ?_) fun _ => rfl
      rw [← hat.1, ← hat.2, hrecord]
      rfl
  | delete table key =>
    rw [Op.tablesAfter]
    cases hrecord : record tables table key with
    | none => exact habsent hrecord (fun _ => none) rfl
    | some storedValues => exact record_atTable_erase ..

/-- A property of every record is kept by an operation that inserts such a record, or
    merges into such a record. -/
theorem forall_record_tablesAfter {R : List KVPair → Prop} {tables : Tables} {op : Op}
    (h : ∀ table key values, record tables table key = some values → R values)
    (hinsert : ∀ table key values, op = .insert table key values → R values)
    (hupdate : ∀ table key values storedValues, op = .update table key values → R storedValues →
      R (values.foldl mergeValue storedValues)) :
    ∀ table key values, record (op.tablesAfter tables) table key = some values → R values := by
  intro table key values hrecord
  rw [record_tablesAfter] at hrecord
  by_cases hat : op.table = table ∧ op.key = key
  · rw [if_pos hat] at hrecord
    cases op with
    | insert table' key' inserted =>
      obtain rfl := Option.some.inj hrecord
      exact hinsert table' key' inserted rfl
    | update table' key' updated =>
      obtain ⟨storedValues, hstored, rfl⟩ := Option.map_eq_some_iff.mp hrecord
      exact hupdate table' key' updated storedValues rfl (h table key storedValues hstored)
    | delete _ _ => cases hrecord
  · rw [if_neg hat] at hrecord
    exact h table key values hrecord

theorem tables_andThen {α σ : Type} {r : Outcome α × NVMDB σ}
    {f : α → NVMDB σ → Outcome Int × NVMDB σ} (hf : ∀ a s, (f a s).2.tables = s.tables) :
    (andThen r f).2.tables = r.2.tables := by
  obtain ⟨out, s⟩ := r
  cases out with
  | returned a => exact hf a s
  | threw e => rfl
  | aborted => rfl
  | undefined => rfl
  | running => rfl

theorem tables_persist {ω σ : Type} (engine : RecoveryEngine ω σ) (env : ω) (s : NVMDB σ)
    (key : Str) (call : UInt64 → PersistCall) :
    (s.persist engine env key call).2.tables = s.tables := by
  rw [NVMDB.persist, tables_andThen]
  intro k s
  rw [tables_andThen]
  intro status s
  rfl

theorem tables_apply {ω σ : Type} (engine : RecoveryEngine ω σ) (env : ω) (s : NVMDB σ)
    (op : Op) : (s.apply engine env op).2.tables = op.tablesAfter s.tables := by
  cases op with
  | insert table key values =>
    rw [NVMDB.apply, NVMDB.insert, tables_persist]
    rfl
  | update table key values =>
    rw [NVMDB.apply, NVMDB.update, findByTableKey_eq, Op.tablesAfter]
    cases record s.tables table key with
    | none => rfl
    | some storedValues => exact tables_persist ..
  | delete table key =>
    rw [NVMDB.apply, NVMDB.delete, findByTableKey_eq, Op.tablesAfter]
    cases record s.tables table key with
    | none => rfl
    | some storedValues => exact tables_persist ..

/-! ### Failed operations -/

theorem foldl_mergeValue_cons (values : List KVPair) (q : KVPair) (storedValues : List KVPair) :
    values.foldl mergeValue (q :: storedValues) =
      (q.1, (lastValue q.1 values).getD q.2) ::
        (values.filter fun p => p.1 ≠ q.1).foldl mergeValue storedValues := by
  induction values generalizing q storedValues with
  | nil => rfl
  | cons value values ih =>
    rw [List.foldl_cons, mergeValue_cons, lastValue, valuesOf_cons]
    by_cases h : q.1 = value.1
    · rw [if_pos h, ih, if_pos h.symm, List.filter_cons_of_neg (by simpa using h.symm),
        List.getLast?_cons, lastValue]
      rfl
    · rw [if_neg h, ih, if_neg (Ne.symm h), List.filter_cons_of_pos (by simpa using Ne.symm h),
        List.foldl_cons]
      rfl

theorem exists_lastValue {values : List KVPair} {p : KVPair} (h : p ∈ values) :
    ∃ v, lastValue p.1 values = some v := by
  have hmem : p.2 ∈ valuesOf p.1 values :=
    List.mem_map.mpr ⟨p, List.mem_filter.mpr ⟨h, by simp⟩, rfl⟩
  exact Option.isSome_iff_exists.mp (by
    rw [lastValue, List.getLast?_isSome]
    exact List.ne_nil_of_mem hmem)

theorem lastValue_filter_ne {values : List KVPair} {name other : Str} (h : name ≠ other) :
    lastValue name (values.filter fun p => p.1 ≠ other) = lastValue name values := by
  rw [lastValue, lastValue, valuesOf, valuesOf, List.filter_filter]
  congr 3
  funext p
  by_cases hp : p.1 = name <;> simp [hp, h]

/-- The merge loop gives the record back exactly when each carried field already
    has the last value carried for it. -/
theorem foldl_mergeValue_eq_self_iff (values storedValues : List KVPair) :
    values.foldl mergeValue storedValues = storedValues ↔
      ∀ p ∈ values, storedValues.lookup p.1 = lastValue p.1 values := by
  induction storedValues generalizing values with
  | nil =>
    cases values with
    | nil => simp
    | cons value values =>
      obtain ⟨v, hv⟩ := exists_lastValue (List.mem_cons_self (a := value) (l := values))
      rw [List.foldl_cons, mergeValue_nil, foldl_mergeValue_cons]
      refine iff_of_false nofun fun h => ?_
      have hnone := h value List.mem_cons_self
      rw [hv] at hnone
      cases hnone
  | cons q storedValues ih =>
    rw [foldl_mergeValue_cons, List.cons_eq_cons, ih]
    constructor
    · rintro ⟨hq, hrest⟩ p hp
      rw [lookup_cons_pair]
      by_cases hname : p.1 = q.1
      · obtain ⟨v, hv⟩ := exists_lastValue hp
        have hvalue : (lastValue q.1 values).getD q.2 = q.2 := congrArg Prod.snd hq
        rw [if_pos hname, hv]
        rw [← hname, hv, Option.getD_some] at hvalue
        rw [hvalue]
      · rw [if_neg hname, hrest p (List.mem_filter.mpr ⟨hp, by simpa using hname⟩),
          lastValue_filter_ne hname]
    · intro h
      refine ⟨?_, fun p hp => ?_⟩
      · cases hlast : lastValue q.1 values with
        | none => rfl
        | some v =>
          -- the name is carried, so the stored pair has the last value carried
          have hmem : v ∈ valuesOf q.1 values := List.mem_of_getLast? hlast
          obtain ⟨p, hp, -⟩ := List.mem_map.mp hmem
          obtain ⟨hp, hname⟩ := List.mem_filter.mp hp
          have heq := h p hp
          rw [decide_eq_true_eq.mp hname, lookup_cons_pair, if_pos rfl, hlast] at heq
          rw [Option.getD_some, ← Option.some.inj heq]
      · obtain ⟨hp, hname⟩ := List.mem_filter.mp hp
        have hne : p.1 ≠ q.1 := by simpa using hname
        have heq := h p hp
        rwa [lookup_cons_pair, if_neg hne, ← lastValue_filter_ne hne] at heq

/-- The operation has nothing to change: the record inserted is the stored one,
    each field updated has its new value already, the record to delete is absent. -/
def NothingToChange (tables : Tables) : Op → Prop
  | .insert table key values => record tables table key = some values
  | .update table key values => ∀ storedValues, record tables table key = some storedValues →
      ∀ p ∈ values, storedValues.lookup p.1 = lastValue p.1 values
  | .delete table key => record tables table key = none

theorem tablesAfter_eq_iff (tables : Tables) (op : Op) :
    op.tablesAfter tables = tables ↔ NothingToChange tables op := by
  cases op with
  | insert table key values => exact atTable_insert_eq_iff ..
  | update table key values =>
    rw [Op.tablesAfter, NothingToChange]
    cases hrecord : record tables table key with
    | none => simp
    | some storedValues =>
      show (atTable tables table fun myTable => myTable.insert key _) = tables ↔ _
      rw [atTable_insert_eq_iff, hrecord, Option.some_inj, eq_comm, foldl_mergeValue_eq_self_iff]
      simp
  | delete table key =>
    rw [Op.tablesAfter, NothingToChange]
    cases hrecord : record tables table key with
    | none => simp
    | some storedValues =>
      refine iff_of_false (fun h => ?_) nofun
      have herased := record_atTable_erase tables table key table key
      rw [if_pos ⟨rfl, rfl⟩] at herased
      rw [show (atTable tables table fun myTable => myTable.erase key) = tables from h, hrecord]
        at herased
      cases herased

/-- **A failed operation is atomic exactly when it had nothing to change.**  For
    every engine, every state, every device outcome and every operation that does
    not return `kOK`, whichever way it fails: the tables are as before exactly
    when an Insert inserts the stored record again, an Update finds every field
    with its new value, and a Delete finds no record. -/
theorem tables_of_failed_iff {ω σ : Type} (engine : RecoveryEngine ω σ) (env : ω) (s : NVMDB σ)
    (op : Op) : (s.apply engine env op).1 ≠ .returned kOK →
      ((s.apply engine env op).2.tables = s.tables ↔ NothingToChange s.tables op) := by
  intro _
  rw [tables_apply]
  exact tablesAfter_eq_iff s.tables op

def emptyDb : NVMDB NVMBlkEngine := ⟨∅, NVMBlkEngine.create 1⟩

def oneField : Op := .insert (lit ['t']) (lit ['1']) [(fieldName 0, [97])]

def refusedWrite : BlkEnv := { blkWrite := false }

theorem oneField_refused : (emptyDb.apply NvmBlk.engine refusedWrite oneField).1 =
    .returned kErrorConflict := by decide +kernel

theorem tables_of_failed_iff_oneField :
    (emptyDb.apply NvmBlk.engine refusedWrite oneField).2.tables = emptyDb.tables ↔
      NothingToChange emptyDb.tables oneField :=
  tables_of_failed_iff NvmBlk.engine refusedWrite emptyDb oneField (by
    rw [oneField_refused]
    decide)

/-- **A failed Insert can be read.**  The block write fails and the Insert returns
    `kErrorConflict`; the tables have changed all the same: the record that
    nothing persisted is returned by the next Read. -/
theorem changed_oneField :
    (emptyDb.apply NvmBlk.engine refusedWrite oneField).1 = .returned kErrorConflict ∧
      (emptyDb.apply NvmBlk.engine refusedWrite oneField).2.tables ≠ emptyDb.tables ∧
      (emptyDb.apply NvmBlk.engine refusedWrite oneField).2.read (lit ['t']) (lit ['1']) none [] =
        (kOK, [(fieldName 0, [97])]) ∧
      (emptyDb.apply NvmBlk.engine refusedWrite oneField).2.recEngine = emptyDb.recEngine := by
  refine ⟨oneField_refused, fun h => ?_, by decide +kernel, rfl⟩
  rw [tables_apply, tablesAfter_eq_iff] at h
  have hstored : record ∅ (lit ['t']) (lit ['1']) = some [(fieldName 0, [97])] := h
  rw [record_empty] at hstored
  cases hstored

end NvrecYcsb.NvmDb
