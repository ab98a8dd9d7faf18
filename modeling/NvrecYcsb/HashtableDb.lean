/-
  NvrecYcsb/HashtableDb.lean
  ==========================
  **The hash table back end** (`db/hashtable_db.cc`, `db/lock_stl_db.h`).

  A record lives in a field table of its own, and `key_table_` finds the field
  table by one string, the table name and the key written after each other.
  Each operation is a program of calls on these tables; under `LockStlHashtable`
  a call is one step, and an operation is as many steps as it makes calls.

  * `exec_program`: what an operation does with nothing in between, as a
    function of the record it is about;
  * `exec_read`: what a read returns;
  * `isolated_iff`: two records are independent exactly when table and key,
    written after each other, are different strings.
-/
import NvrecYcsb.AtomicCalls
import NvrecYcsb.NvmDb
import NvrecYcsb.Runs
import NvrecYcsb.StlHashtable

namespace NvrecYcsb.HashtableDb

open AtomicCalls CppRuntime RecoveryDefs Runs StlHashtable
open NvmDb (kOK kErrorNoData kErrorConflict Op)

abbrev Ptr := Nat

abbrev FieldHashtable := StlHashtable.Table Str
abbrev KeyHashtable := StlHashtable.Table Ptr

/-- `key_table_`, and the field tables made so far; a deleted one is gone. -/
structure Mem where
  keyTable : KeyHashtable
  fieldTables : List (Option FieldHashtable)

namespace Mem

def empty : Mem := ⟨∅, []⟩

/-- The field table a pointer points to. -/
def tableAt (m : Mem) (p : Ptr) : Option FieldHashtable := m.fieldTables[p]?.join

def setTable (m : Mem) (p : Ptr) (table : FieldHashtable) : Mem :=
  { m with fieldTables := m.fieldTables.set p (some table) }

end Mem

/-- The calls an operation makes. -/
inductive Call : Type → Type
  | keyGet (index : Str) : Call (Option Ptr)
  | keyInsert (index : Str) (p : Ptr) : Call Bool
  | keyRemove (index : Str) : Call (Option Ptr)
  | newFieldHashtable : Call Ptr
  | deleteFieldHashtable (p : Ptr) : Call Unit
  | fieldGet (p : Ptr) (field : Str) : Call (Option Str)
  | fieldInsert (p : Ptr) (field value : Str) : Call Bool
  | fieldUpdate (p : Ptr) (field value : Str) : Call (Option Str)
  | fieldEntries (p : Ptr) : Call (List KVPair)

/-- What a call does; a call on a deleted table is undefined. -/
def handle : Handler Call Mem
  | _, .keyGet index, m => some (get m.keyTable index, m)
  | _, .keyInsert index p, m =>
    some ((insert m.keyTable index p).1, { m with keyTable := (insert m.keyTable index p).2 })
  | _, .keyRemove index, m =>
    some ((remove m.keyTable index).1, { m with keyTable := (remove m.keyTable index).2 })
  | _, .newFieldHashtable, m =>
    some (m.fieldTables.length, { m with fieldTables := m.fieldTables ++ [some ∅] })
  | _, .deleteFieldHashtable p, m =>
    (m.tableAt p).map fun _ => ((), { m with fieldTables := m.fieldTables.set p none })
  | _, .fieldGet p field, m => (m.tableAt p).map fun table => (get table field, m)
  | _, .fieldInsert p field value, m =>
    (m.tableAt p).map fun table =>
      ((insert table field value).1, m.setTable p (insert table field value).2)
  | _, .fieldUpdate p field value, m =>
    (m.tableAt p).map fun table =>
      ((update table field value).1, m.setTable p (update table field value).2)
  | _, .fieldEntries p, m => (m.tableAt p).map fun table => (entries table, m)

/-- `CopyString`: `strcpy` from `c_str()`. -/
def copyString (s : Str) : Str := cStr s

/-! ### The operations -/

/-- The loop of `Read` over the fields asked for. -/
def readFields (p : Ptr) : List Str → List KVPair → Prog Call (Int × List KVPair)
  | [], result => .ret (kOK, result)
  | field :: fields, result => .call (.fieldGet p field) fun value =>
    match value with
    | none => readFields p fields result
    | some value => readFields p fields (result ++ [(field, value)])

/-- `Read`; `none` for `fields` is the null pointer. -/
def read (table key : Str) (fields : Option (List Str)) (result : List KVPair) :
    Prog Call (Int × List KVPair) :=
  .call (.keyGet (table ++ key)) fun fieldTable =>
    match fieldTable with
    | none => .ret (kErrorNoData, result)
    | some p =>
      match fields with
      | none => .call (.fieldEntries p) fun fieldPairs => .ret (kOK, fieldPairs)
      | some fields => readFields p fields []

/-- The loop of `Update` for a record it has just made; what `Insert` of the
    field table returns is not looked at. -/
def addFields (p : Ptr) : List KVPair → Prog Call Int
  | [] => .ret kOK
  | fieldPair :: values =>
    .call (.fieldInsert p fieldPair.1 (copyString fieldPair.2)) fun _ => addFields p values

/-- The loop of `Update` for a record that is there. -/
def updateFields (p : Ptr) : List KVPair → Prog Call Int
  | [] => .ret kOK
  | fieldPair :: values =>
    .call (.fieldUpdate p fieldPair.1 (copyString fieldPair.2)) fun old =>
      match old with
      | none =>
        .call (.fieldInsert p fieldPair.1 (copyString fieldPair.2)) fun _ => updateFields p values
      | some _ => updateFields p values

/-- The loop of `Insert`, which stops at the first field that is there. -/
def insertFields (p : Ptr) : List KVPair → Prog Call Int
  | [] => .ret kOK
  | fieldPair :: values =>
    .call (.fieldInsert p fieldPair.1 (copyString fieldPair.2)) fun ok =>
      if ok then insertFields p values else .ret kErrorConflict

/-- `NewFieldHashtable`, and the record published; whether `Insert` of the key
    table took it is not looked at. -/
def newRecord (index : Str) (body : Ptr → Prog Call Int) : Prog Call Int :=
  .call .newFieldHashtable fun p => .call (.keyInsert index p) fun _ => body p

def updateProgram (table key : Str) (values : List KVPair) : Prog Call Int :=
  .call (.keyGet (table ++ key)) fun fieldTable =>
    match fieldTable with
    | none => newRecord (table ++ key) fun p => addFields p values
    | some p => updateFields p values

def insertProgram (table key : Str) (values : List KVPair) : Prog Call Int :=
  .call (.keyGet (table ++ key)) fun fieldTable =>
    match fieldTable with
    | none => newRecord (table ++ key) fun p => insertFields p values
    | some p => insertFields p values

def deleteProgram (table key : Str) : Prog Call Int :=
  .call (.keyRemove (table ++ key)) fun fieldTable =>
    match fieldTable with
    | none => .ret kErrorNoData
    | some p => .call (.deleteFieldHashtable p) fun _ => .ret kOK

def program : Op → Prog Call Int
  | .insert table key values => insertProgram table key values
  | .update table key values => updateProgram table key values
  | .delete table key => deleteProgram table key

/-- An operation of one client with no other client at work. -/
def step (m : Mem) (op : Op) : Mem := (((program op).exec handle m).map Prod.snd).getD m

/-! ### The memory -/

namespace Mem

theorem tableAt_setTable {m : Mem} {p : Ptr} {t : FieldHashtable} (h : m.tableAt p = some t)
    (table : FieldHashtable) (q : Ptr) :
    (m.setTable p table).tableAt q = if p = q then some table else m.tableAt q := by
  have hlt : p < m.fieldTables.length := by
    by_contra hge
    rw [tableAt, List.getElem?_eq_none (not_lt.mp hge)] at h
    cases h
  rw [tableAt, setTable, List.getElem?_set]
  by_cases hpq : p = q
  · rw [if_pos hpq, if_pos hpq, if_pos hlt]
    rfl
  · rw [if_neg hpq, if_neg hpq]
    rfl

@[simp] theorem keyTable_setTable (m : Mem) (p : Ptr) (table : FieldHashtable) :
    (m.setTable p table).keyTable = m.keyTable := rfl

@[simp] theorem setTable_setTable (m : Mem) (p : Ptr) (table table' : FieldHashtable) :
    (m.setTable p table).setTable p table' = m.setTable p table' := by
  rw [setTable, setTable, setTable, List.set_set]

theorem setTable_self {m : Mem} {p : Ptr} {t : FieldHashtable} (h : m.tableAt p = some t) :
    m.setTable p t = m := by
  have hget : m.fieldTables[p]? = some (some t) := Option.join_eq_some_iff.mp h
  obtain ⟨hlt, hval⟩ := List.getElem?_eq_some_iff.mp hget
  rw [setTable, ← hval, List.set_getElem_self]

theorem tableAt_setTable_self {m : Mem} {p : Ptr} {t : FieldHashtable}
    (h : m.tableAt p = some t) (table : FieldHashtable) :
    (m.setTable p table).tableAt p = some table := by
  rw [tableAt_setTable h, if_pos rfl]

/-- The field table of an index. -/
def recordAt (m : Mem) (index : Str) : Option FieldHashtable := m.keyTable[index]?.bind m.tableAt

@[simp] theorem recordAt_empty (index : Str) : empty.recordAt index = none := by
  rw [recordAt, empty, Std.ExtTreeMap.getElem?_empty, Option.bind_none]

/-- Every record has a field table, which is there and is its own. -/
structure WellFormed (m : Mem) : Prop where
  live : ∀ (index : Str) (p : Ptr), m.keyTable[index]? = some p → ∃ t, m.tableAt p = some t
  own : ∀ (index index' : Str) (p : Ptr), m.keyTable[index]? = some p → m.keyTable[index']? = some p →
    index = index'

/-- An operation has made `record` of the record of an index, and left the others. -/
structure Becomes (m m' : Mem) (index : Str) (record : Option FieldHashtable) : Prop where
  wellFormed : m'.WellFormed
  recordAt : ∀ index', m'.recordAt index' = if index' = index then record else m.recordAt index'

theorem wellFormed_empty : empty.WellFormed := by
  constructor
  · intro index p h
    rw [empty, Std.ExtTreeMap.getElem?_empty] at h
    cases h
  · intro index index' p h
    rw [empty, Std.ExtTreeMap.getElem?_empty] at h
    cases h

end Mem

/-! ### The loops -/

/-- What the loop of `Insert` returns and makes of the field table. -/
def insertAll : List KVPair → FieldHashtable → Int × FieldHashtable
  | [], t => (kOK, t)
  | fieldPair :: values, t =>
    let r := insert t fieldPair.1 (copyString fieldPair.2)
    if r.1 then insertAll values r.2 else (kErrorConflict, r.2)

def addAll (values : List KVPair) (t : FieldHashtable) : FieldHashtable :=
  values.foldl (fun t fieldPair => (insert t fieldPair.1 (copyString fieldPair.2)).2) t

/-- A turn of the loop of `Update` for a record that is there. -/
def putField (t : FieldHashtable) (fieldPair : KVPair) : FieldHashtable :=
  let r := update t fieldPair.1 (copyString fieldPair.2)
  match r.1 with
  | none => (insert r.2 fieldPair.1 (copyString fieldPair.2)).2
  | some _ => r.2

section Loops

variable {m : Mem} {p : Ptr} {t : FieldHashtable}

theorem handle_fieldGet (h : m.tableAt p = some t) (field : Str) :
    handle _ (.fieldGet p field) m = some (get t field, m) := by
  rw [handle, h, Option.map_some]

theorem handle_fieldEntries (h : m.tableAt p = some t) :
    handle _ (.fieldEntries p) m = some (entries t, m) := by
  rw [handle, h, Option.map_some]

theorem handle_fieldInsert (h : m.tableAt p = some t) (field value : Str) :
    handle _ (.fieldInsert p field value) m =
      some ((insert t field value).1, m.setTable p (insert t field value).2) := by
  rw [handle, h, Option.map_some]

theorem handle_fieldUpdate (h : m.tableAt p = some t) (field value : Str) :
    handle _ (.fieldUpdate p field value) m =
      some ((update t field value).1, m.setTable p (update t field value).2) := by
  rw [handle, h, Option.map_some]

theorem exec_insertFields (h : m.tableAt p = some t) (values : List KVPair) :
    (insertFields p values).exec handle m =
      some ((insertAll values t).1, m.setTable p (insertAll values t).2) := by
  induction values generalizing m t with
  | nil => rw [insertFields, exec_ret, insertAll, Mem.setTable_self h]
  | cons fieldPair values ih =>
    rw [insertFields, exec_call handle (handle_fieldInsert h _ _), insertAll]
    cases (insert t fieldPair.1 (copyString fieldPair.2)).1 with
    | false => rfl
    | true =>
      rw [if_pos rfl, if_pos rfl, ih (Mem.tableAt_setTable_self h _), Mem.setTable_setTable]

theorem exec_addFields (h : m.tableAt p = some t) (values : List KVPair) :
    (addFields p values).exec handle m = some (kOK, m.setTable p (addAll values t)) := by
  induction values generalizing m t with
  | nil => rw [addFields, exec_ret, addAll, List.foldl_nil, Mem.setTable_self h]
  | cons fieldPair values ih =>
    rw [addFields, exec_call handle (handle_fieldInsert h _ _),
      ih (Mem.tableAt_setTable_self h _), Mem.setTable_setTable]
    rfl

theorem exec_updateFields (h : m.tableAt p = some t) (values : List KVPair) :
    (updateFields p values).exec handle m = some (kOK, m.setTable p (values.foldl putField t)) := by
  induction values generalizing m t with
  | nil => rw [updateFields, exec_ret, List.foldl_nil, Mem.setTable_self h]
  | cons fieldPair values ih =>
    have hthere := Mem.tableAt_setTable_self h (update t fieldPair.1 (copyString fieldPair.2)).2
    rw [updateFields, exec_call handle (handle_fieldUpdate h _ _), List.foldl_cons, putField]
    cases (update t fieldPair.1 (copyString fieldPair.2)).1 with
    | some old => rw [ih hthere, Mem.setTable_setTable]
    | none =>
      rw [exec_call handle (handle_fieldInsert hthere _ _),
        ih (Mem.tableAt_setTable_self hthere _), Mem.setTable_setTable, Mem.setTable_setTable]

theorem exec_readFields (h : m.tableAt p = some t) (fields : List Str) (result : List KVPair) :
    (readFields p fields result).exec handle m =
      some ((kOK, result ++ fields.filterMap fun field => (get t field).map (Prod.mk field)), m) := by
  induction fields generalizing result with
  | nil => rw [readFields, exec_ret, List.filterMap_nil, List.append_nil]
  | cons field fields ih =>
    rw [readFields, exec_call handle (handle_fieldGet h field), List.filterMap_cons]
    cases get t field with
    | none => exact ih result
    | some value =>
      show (readFields p fields (result ++ [(field, value)])).exec handle m = _
      rw [ih, List.append_assoc]
      rfl

end Loops

/-! ### The operations as functions of a record -/

/-- The string under which `key_table_` holds the record of an operation. -/
def indexOf (table key : Str) : Str := cStr (table ++ key)

def opIndex (op : Op) : Str := indexOf op.table op.key

/-- What an operation returns and makes of the record it is about. -/
def outcome : Op → Option FieldHashtable → Int × Option FieldHashtable
  | .insert _ _ values, record =>
    ((insertAll values (record.getD ∅)).1, some (insertAll values (record.getD ∅)).2)
  | .update _ _ values, none => (kOK, some (addAll values ∅))
  | .update _ _ values, some t => (kOK, some (values.foldl putField t))
  | .delete _ _, none => (kErrorNoData, none)
  | .delete _ _, some _ => (kOK, none)

namespace Mem

variable {m : Mem} {index : Str} {p : Ptr} {t : FieldHashtable}

theorem recordAt_of_get (hp : m.keyTable[index]? = some p) (ht : m.tableAt p = some t) :
    m.recordAt index = some t := by
  rw [recordAt, hp, Option.bind_some, ht]

theorem recordAt_of_absent (h : m.keyTable[index]? = none) : m.recordAt index = none := by
  rw [recordAt, h, Option.bind_none]

/-- A record stays when its field table is found where it was, as it was. -/
theorem recordAt_congr {m' : Mem} (hkeys : m'.keyTable[index]? = m.keyTable[index]?)
    (htables : ∀ q, m.keyTable[index]? = some q → m'.tableAt q = m.tableAt q) :
    m'.recordAt index = m.recordAt index := by
  rw [recordAt, recordAt, hkeys]
  cases hq : m.keyTable[index]? with
  | none => rfl
  | some q => exact htables q hq

/-- The field table of one record is replaced. -/
theorem setTable_spec (hm : m.WellFormed) (hp : m.keyTable[index]? = some p)
    (ht : m.tableAt p = some t) (t' : FieldHashtable) :
    m.Becomes (m.setTable p t') index (some t') := by
  refine ⟨⟨?_, hm.own⟩, ?_⟩
  · intro index' q hq
    rw [tableAt_setTable ht]
    by_cases hpq : p = q
    · rw [if_pos hpq]
      exact ⟨t', rfl⟩
    · rw [if_neg hpq]
      exact hm.live index' q hq
  · intro index'
    by_cases hindex : index' = index
    · rw [if_pos hindex, hindex]
      exact recordAt_of_get hp (tableAt_setTable_self ht t')
    · rw [if_neg hindex]
      refine recordAt_congr rfl ?_
      intro q hq
      have hpq : p ≠ q := by
        rintro rfl
        exact hindex (hm.own index' index p hq hp)
      rw [tableAt_setTable ht, if_neg hpq]

/-- The memory with a new field table, published under the key. -/
def publish (m : Mem) (key : Str) : Mem :=
  { keyTable := (insert m.keyTable key m.fieldTables.length).2
    fieldTables := m.fieldTables ++ [some ∅] }

theorem tableAt_append (tables : KeyHashtable) (m : Mem) (q : Ptr) :
    tableAt ⟨tables, m.fieldTables ++ [some ∅]⟩ q =
      if q = m.fieldTables.length then some ∅ else m.tableAt q := by
  show (m.fieldTables ++ [some ∅])[q]?.join = _
  rw [List.getElem?_append, List.getElem?_singleton]
  by_cases hlt : q < m.fieldTables.length
  · rw [if_pos hlt, if_neg hlt.ne]
    rfl
  · rw [if_neg hlt]
    by_cases heq : q = m.fieldTables.length
    · rw [if_pos (Nat.sub_eq_zero_of_le heq.le), if_pos heq]
      rfl
    · have hgt : m.fieldTables.length < q := lt_of_le_of_ne (not_lt.mp hlt) (Ne.symm heq)
      rw [if_neg (Nat.sub_ne_zero_of_lt hgt), if_neg heq, tableAt,
        List.getElem?_eq_none (not_lt.mp hlt)]

theorem getElem?_publish {key : Str} (hnone : m.keyTable[cStr key]? = none) (index' : Str) :
    (m.publish key).keyTable[index']? =
      if cStr key = index' then some m.fieldTables.length else m.keyTable[index']? :=
  getElem?_insert_of_absent hnone _ index'

/-- A field table that is made is not one that a record has. -/
theorem WellFormed.ne_length (hm : m.WellFormed) {q : Ptr} (hq : m.keyTable[index]? = some q) :
    q ≠ m.fieldTables.length := by
  rintro rfl
  obtain ⟨t, ht⟩ := hm.live index _ hq
  rw [tableAt, List.getElem?_eq_none (le_refl _)] at ht
  cases ht

theorem wellFormed_publish (hm : m.WellFormed) {key : Str}
    (hnone : m.keyTable[cStr key]? = none) : (m.publish key).WellFormed := by
  constructor
  · intro index' q hq
    rw [getElem?_publish hnone] at hq
    rw [publish, tableAt_append]
    by_cases h : cStr key = index'
    · rw [if_pos h] at hq
      obtain rfl := Option.some.inj hq
      exact ⟨∅, if_pos rfl⟩
    · rw [if_neg h] at hq
      rw [if_neg (hm.ne_length hq)]
      exact hm.live index' q hq
  · intro index' index'' q hq hq'
    rw [getElem?_publish hnone] at hq hq'
    by_cases h : cStr key = index' <;> by_cases h' : cStr key = index''
    · rw [← h, ← h']
    · rw [if_pos h] at hq
      rw [if_neg h'] at hq'
      exact (hm.ne_length hq' (Option.some.inj hq).symm).elim
    · rw [if_neg h] at hq
      rw [if_pos h'] at hq'
      exact (hm.ne_length hq (Option.some.inj hq').symm).elim
    · rw [if_neg h] at hq
      rw [if_neg h'] at hq'
      exact hm.own index' index'' q hq hq'

theorem publish_spec (hm : m.WellFormed) {key : Str} (hnone : m.keyTable[cStr key]? = none) :
    m.Becomes (m.publish key) (cStr key) (some ∅) ∧
      (m.publish key).keyTable[cStr key]? = some m.fieldTables.length ∧
      (m.publish key).tableAt m.fieldTables.length = some ∅ := by
  have hkey : (m.publish key).keyTable[cStr key]? = some m.fieldTables.length := by
    rw [getElem?_publish hnone, if_pos rfl]
  have htable : (m.publish key).tableAt m.fieldTables.length = some ∅ := by
    rw [publish, tableAt_append, if_pos rfl]
  refine ⟨⟨wellFormed_publish hm hnone, ?_⟩, hkey, htable⟩
  intro index'
  by_cases h : index' = cStr key
  · rw [if_pos h, h]
    exact recordAt_of_get hkey htable
  · rw [if_neg h]
    refine recordAt_congr ?_ ?_
    · rw [getElem?_publish hnone, if_neg (Ne.symm h)]
    · intro q hq
      rw [publish, tableAt_append, if_neg (hm.ne_length hq)]

/-- A new record with the fields of `t`. -/
theorem publish_setTable_spec (hm : m.WellFormed) {key : Str}
    (hnone : m.keyTable[cStr key]? = none) (t : FieldHashtable) :
    m.Becomes ((m.publish key).setTable m.fieldTables.length t) (cStr key) (some t) := by
  obtain ⟨hpublished, hkey, htable⟩ := publish_spec hm hnone
  have hset := setTable_spec hpublished.wellFormed hkey htable t
  refine ⟨hset.wellFormed, ?_⟩
  intro index'
  rw [hset.recordAt, hpublished.recordAt]
  by_cases h : index' = cStr key
  · rw [if_pos h, if_pos h]
  · rw [if_neg h, if_neg h, if_neg h]

theorem stays (hm : m.WellFormed) {record : Option FieldHashtable}
    (h : m.recordAt index = record) : m.Becomes m index record := by
  refine ⟨hm, ?_⟩
  intro index'
  by_cases hindex : index' = index
  · rw [if_pos hindex, hindex, h]
  · rw [if_neg hindex]

/-- The memory without a record and its field table. -/
def discard (m : Mem) (key : Str) (p : Ptr) : Mem :=
  { keyTable := (remove m.keyTable key).2
    fieldTables := m.fieldTables.set p none }

theorem discard_spec (hm : m.WellFormed) {key : Str} (hp : m.keyTable[cStr key]? = some p) :
    m.Becomes (m.discard key p) (cStr key) none := by
  have hget : ∀ index', (m.discard key p).keyTable[index']? =
      if cStr key = index' then none else m.keyTable[index']? := fun index' => getElem?_remove index'
  have hother : ∀ (index' : Str) (q : Ptr), cStr key ≠ index' → m.keyTable[index']? = some q →
      (m.discard key p).tableAt q = m.tableAt q := by
    intro index' q hne hq
    have hpq : p ≠ q := by
      rintro rfl
      exact hne (hm.own _ _ p hp hq)
    rw [discard, tableAt, List.getElem?_set_ne hpq, tableAt]
  refine ⟨⟨?_, ?_⟩, ?_⟩
  · intro index' q hq
    rw [hget] at hq
    by_cases h : cStr key = index'
    · rw [if_pos h] at hq
      cases hq
    · rw [if_neg h] at hq
      rw [hother index' q h hq]
      exact hm.live index' q hq
  · intro index' index'' q hq hq'
    rw [hget] at hq hq'
    by_cases h : cStr key = index'
    · rw [if_pos h] at hq
      cases hq
    · by_cases h' : cStr key = index''
      · rw [if_pos h'] at hq'
        cases hq'
      · rw [if_neg h] at hq
        rw [if_neg h'] at hq'
        exact hm.own index' index'' q hq hq'
  · intro index'
    by_cases h : cStr key = index'
    · rw [if_pos h.symm]
      exact recordAt_of_absent ((hget index').trans (if_pos h))
    · rw [if_neg (Ne.symm h)]
      refine recordAt_congr ?_ ?_
      · rw [hget, if_neg h]
      · intro q hq
        exact hother index' q h hq

end Mem

/-! ### The operations with nothing in between -/

theorem handle_keyGet {m : Mem} {key : Str} {found : Option Ptr}
    (h : m.keyTable[cStr key]? = found) : handle _ (.keyGet key) m = some (found, m) :=
  congrArg (fun found => some (found, m)) h

theorem exec_newRecord {m : Mem} {key : Str} {body : Ptr → Prog Call Int} :
    (newRecord key body).exec handle m =
      (body m.fieldTables.length).exec handle (m.publish key) := rfl

section Programs

variable {m : Mem} (hm : m.WellFormed) (table key : Str)
include hm

/-- An operation that finds the record or makes a new one, and then works on its
    field table. -/
theorem exec_findOrCreate (op : Op) {next : Option Ptr → Prog Call Int}
    {body : Ptr → Prog Call Int} (hnew : next none = newRecord (table ++ key) body)
    (habsent : ∀ {m : Mem} {p : Ptr}, m.tableAt p = some ∅ → ∃ t,
      (body p).exec handle m = some ((outcome op none).1, m.setTable p t) ∧
        (outcome op none).2 = some t)
    (hpresent : ∀ {m : Mem} {p : Ptr} {t : FieldHashtable}, m.tableAt p = some t → ∃ t',
      (next (some p)).exec handle m = some ((outcome op (some t)).1, m.setTable p t') ∧
        (outcome op (some t)).2 = some t') :
    ∃ m', (Prog.call (.keyGet (table ++ key)) next).exec handle m =
        some ((outcome op (m.recordAt (indexOf table key))).1, m') ∧
      m.Becomes m' (indexOf table key) (outcome op (m.recordAt (indexOf table key))).2 := by
  cases hget : m.keyTable[indexOf table key]? with
  | none =>
    obtain ⟨-, -, htable⟩ := Mem.publish_spec hm hget
    obtain ⟨t, hexec, hrecord⟩ := habsent htable
    rw [Mem.recordAt_of_absent hget, exec_call handle (handle_keyGet hget), hnew, exec_newRecord,
      hrecord]
    exact ⟨_, hexec, Mem.publish_setTable_spec hm hget t⟩
  | some p =>
    obtain ⟨t, ht⟩ := hm.live _ p hget
    obtain ⟨t', hexec, hrecord⟩ := hpresent ht
    rw [Mem.recordAt_of_get hget ht, exec_call handle (handle_keyGet hget), hrecord]
    exact ⟨_, hexec, Mem.setTable_spec hm hget ht t'⟩

theorem exec_insertProgram (values : List KVPair) :
    ∃ m', (insertProgram table key values).exec handle m =
        some ((outcome (.insert table key values) (m.recordAt (indexOf table key))).1, m') ∧
      m.Becomes m' (indexOf table key)
        (outcome (.insert table key values) (m.recordAt (indexOf table key))).2 :=
  exec_findOrCreate hm table key (.insert table key values) rfl
    (fun ht => ⟨_, exec_insertFields ht values, rfl⟩)
    (fun ht => ⟨_, exec_insertFields ht values, rfl⟩)

theorem exec_updateProgram (values : List KVPair) :
    ∃ m', (updateProgram table key values).exec handle m =
        some ((outcome (.update table key values) (m.recordAt (indexOf table key))).1, m') ∧
      m.Becomes m' (indexOf table key)
        (outcome (.update table key values) (m.recordAt (indexOf table key))).2 :=
  exec_findOrCreate hm table key (.update table key values) rfl
    (fun ht => ⟨_, exec_addFields ht values, rfl⟩)
    (fun ht => ⟨_, exec_updateFields ht values, rfl⟩)

theorem exec_deleteProgram :
    ∃ m', (deleteProgram table key).exec handle m =
        some ((outcome (.delete table key) (m.recordAt (indexOf table key))).1, m') ∧
      m.Becomes m' (indexOf table key)
        (outcome (.delete table key) (m.recordAt (indexOf table key))).2 := by
  rw [deleteProgram]
  cases hget : m.keyTable[indexOf table key]? with
  | none =>
    have hremove : handle _ (.keyRemove (table ++ key)) m = some (none, m) := by
      have hkey : m.keyTable[cStr (table ++ key)]? = none := hget
      rw [handle, remove, hkey]
    rw [Mem.recordAt_of_absent hget, exec_call handle hremove]
    exact ⟨m, rfl, Mem.stays hm (Mem.recordAt_of_absent hget)⟩
  | some p =>
    obtain ⟨t, ht⟩ := hm.live _ p hget
    let removed : Mem := { m with keyTable := (remove m.keyTable (table ++ key)).2 }
    have hremove : handle _ (.keyRemove (table ++ key)) m = some (some p, removed) := by
      rw [handle, remove_fst]
      exact congrArg (fun found => some (found, removed)) hget
    have hdelete : handle _ (.deleteFieldHashtable p) removed =
        some ((), m.discard (table ++ key) p) := by
      have hthere : removed.tableAt p = some t := ht
      rw [handle, hthere, Option.map_some]
      rfl
    rw [Mem.recordAt_of_get hget ht, exec_call handle hremove]
    exact ⟨_, exec_call handle hdelete, Mem.discard_spec hm hget⟩

/-- **An operation is a function of the record it is about**, and leaves the
    others as they are. -/
theorem exec_program (op : Op) :
    ∃ m', (program op).exec handle m = some ((outcome op (m.recordAt (opIndex op))).1, m') ∧
      m.Becomes m' (opIndex op) (outcome op (m.recordAt (opIndex op))).2 := by
  cases op with
  | insert table key values => exact exec_insertProgram hm table key values
  | update table key values => exact exec_updateProgram hm table key values
  | delete table key => exact exec_deleteProgram hm table key

end Programs

/-- What a read returns for a record. -/
def readRecord (record : Option FieldHashtable) (fields : Option (List Str)) (result : List KVPair) :
    Int × List KVPair :=
  match record with
  | none => (kErrorNoData, result)
  | some t => (kOK, match fields with
    | none => entries t
    | some fields => fields.filterMap fun field => (get t field).map (Prod.mk field))

theorem exec_read {m : Mem} (hm : m.WellFormed) (table key : Str) (fields : Option (List Str))
    (result : List KVPair) :
    (read table key fields result).exec handle m =
      some (readRecord (m.recordAt (indexOf table key)) fields result, m) := by
  rw [read]
  cases hget : m.keyTable[indexOf table key]? with
  | none =>
    rw [exec_call handle (handle_keyGet hget), Mem.recordAt_of_absent hget]
    rfl
  | some p =>
    obtain ⟨t, ht⟩ := hm.live _ p hget
    rw [exec_call handle (handle_keyGet hget), Mem.recordAt_of_get hget ht]
    cases fields with
    | none => exact exec_call handle (handle_fieldEntries ht)
    | some fields => exact exec_readFields ht fields []

/-! ### Runs of one operation after another -/

theorem step_spec {m : Mem} (hm : m.WellFormed) (op : Op) :
    m.Becomes (step m op) (opIndex op) (outcome op (m.recordAt (opIndex op))).2 := by
  obtain ⟨m', hexec, hbecomes⟩ := exec_program hm op
  rw [step, hexec]
  exact hbecomes

theorem wellFormed_run (ops : List Op) : (run step Mem.empty ops).WellFormed := by
  have h : Throughout step Mem.WellFormed Mem.empty ops :=
    throughout_of_allSteps (P := fun _ _ => True)
      (fun m op hm _ => (step_spec hm op).wellFormed)
      Mem.wellFormed_empty (allSteps_const.mpr fun _ _ => trivial)
  exact h.last

/-- No operation on the record `p` changes what a read of the record `q` returns, in
    any state that operations have led to. -/
def Isolated (p q : Str × Str) : Prop :=
  ∀ (ops : List Op) (op : Op) (fields : Option (List Str)) (result : List KVPair),
    (op.table, op.key) = p →
    ((read q.1 q.2 fields result).exec handle (step (run step Mem.empty ops) op)).map Prod.fst =
      ((read q.1 q.2 fields result).exec handle (run step Mem.empty ops)).map Prod.fst

/-- **Two records are independent exactly when their table and key, written after
    each other, differ.** -/
theorem isolated_iff {p q : Str × Str} (hp : NulFree p.1 ∧ NulFree p.2)
    (hq : NulFree q.1 ∧ NulFree q.2) :
    Isolated p q ↔ p.1 ++ p.2 ≠ q.1 ++ q.2 := by
  have hindex : indexOf p.1 p.2 = indexOf q.1 q.2 ↔ p.1 ++ p.2 = q.1 ++ q.2 := by
    rw [indexOf, indexOf, cStr_of_nulFree (nulFree_append hp.1 hp.2),
      cStr_of_nulFree (nulFree_append hq.1 hq.2)]
  constructor
  · intro h heq
    have hread := h [] (.insert p.1 p.2 []) none [] rfl
    have hbecomes := step_spec Mem.wellFormed_empty (.insert p.1 p.2 [])
    have hsame : indexOf q.1 q.2 = opIndex (.insert p.1 p.2 []) := (hindex.mpr heq).symm
    rw [run_nil, exec_read hbecomes.wellFormed, exec_read Mem.wellFormed_empty,
      hbecomes.recordAt, if_pos hsame, Mem.recordAt_empty] at hread
    have hstatus : kOK = kErrorNoData := congrArg Prod.fst (Option.some.inj hread)
    exact absurd hstatus (by decide)
  · intro hdiffer ops op fields result hop
    have hwell := wellFormed_run ops
    have hbecomes := step_spec hwell op
    have hopIndex : indexOf q.1 q.2 ≠ opIndex op := by
      intro heq
      apply hdiffer
      rw [← hindex, heq, ← hop]
      rfl
    rw [exec_read hbecomes.wellFormed, exec_read hwell, hbecomes.recordAt, if_neg hopIndex]
    rfl

theorem isolated_iff_keysDiffer : Isolated (str "t", str "1") (str "t", str "2") ↔
    str "t" ++ str "1" ≠ str "t" ++ str "2" :=
  isolated_iff (p := (str "t", str "1")) (q := (str "t", str "2"))
    (by decide) (by decide)

/-- The record `c` of the table `ab` is the record `bc` of the table `a`. -/
theorem not_isolated_shiftedBoundary : ¬∀ p q : Str × Str, NulFree p.1 ∧ NulFree p.2 →
    NulFree q.1 ∧ NulFree q.2 → p ≠ q → Isolated p q := by
  intro h
  have hisolated := h (str "ab", str "c") (str "a", str "bc") (by decide) (by decide) (by decide)
  have hread := hisolated [] (.insert (str "ab") (str "c") []) none [] rfl
  exact absurd hread (by decide)

end NvrecYcsb.HashtableDb
