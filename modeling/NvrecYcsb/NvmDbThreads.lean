/-
  NvrecYcsb/NvmDbThreads.lean
  ===========================
  **The in-memory store under the threads of its clients** (`db/nvmdb.cc`).

  Here an operation of the store is what the code does, access by access: it looks
  up the table and then the key, walks the pairs of the record one at a time,
  writes a value or appends a pair, and calls the engine.  Each operation begins
  with a `lock_guard` on `mutex_`, which is given back when the operation returns
  and when an exception leaves it.  Between two accesses any other thread may run.

  * `exec_program`: the accesses of an operation, made one after the other with
    nothing in between, are the operation of the sequential model;
  * `linearizable`: the threads together answer as the sequential store does, its
    operations taken in some order that respects real time;
  * `threads_complete`: no run of the threads ends in a deadlock, scans left out:
    one that finds its key ends without a return, and where it goes is not known.
-/
import NvrecYcsb.CriticalSections
import NvrecYcsb.NvmDbRefinement
import NvrecYcsb.NvmDbScan
import NvrecYcsb.NvmBlk

namespace NvrecYcsb.NvmDbThreads

open AtomicCalls CppRuntime RecoveryDefs RecoveryInterface Runs CriticalSections NvmDb

/-! ### Accesses -/

/-- The accesses to the members of `NVMDB`; a record is named by its table and
    key, as the iterators name it. -/
inductive Access (ω : Type) : Type → Type
  | findTable (table : Str) : Access ω Bool                    -- `tables_.find(table)`
  | findKey (table key : Str) : Access ω Bool                  -- `my_table.find(key)`
  | size (table key : Str) : Access ω Nat                      -- `std::end` of the record
  | pairAt (table key : Str) (i : Nat) : Access ω KVPair
  | setSecond (table key : Str) (i : Nat) (value : Str) : Access ω Unit
  | emplaceBack (table key : Str) (value : KVPair) : Access ω Unit
  | subscriptTable (table : Str) : Access ω Unit               -- `tables_[table]`
  | subscriptKey (table key : Str) : Access ω Unit             -- `[key]`
  | assign (table key : Str) (values : List KVPair) : Access ω Unit
  | erase (table key : Str) : Access ω Unit
  | increment (table key : Str) : Access ω (Option Str)        -- `key_it++`
  | persist (env : ω) (call : PersistCall) : Access ω (Outcome RecoveryStatus)
  | fallOff : Access ω Unit                                    -- undefined behaviour

/-- The call has come back to its caller, with a value or with an exception. -/
def settled {α : Type} : Outcome α → Bool
  | .returned _ => true
  | .threw _ => true
  | _ => false

variable {ω σ : Type}

def setRecord (s : NVMDB σ) (table key : Str) (values : List KVPair) : NVMDB σ :=
  { s with tables := atTable s.tables table fun myTable => myTable.insert key values }

/-- What an access gives and does; nothing when it is undefined, or when the engine
    does not come back. -/
def handle (engine : RecoveryEngine ω σ) : Handler (Access ω) (NVMDB σ)
  | _, .findTable table, s => some (s.tables[table]?.isSome, s)
  | _, .findKey table key, s => s.tables[table]?.map fun myTable => (myTable[key]?.isSome, s)
  | _, .size table key, s => (record s.tables table key).map fun values => (values.length, s)
  | _, .pairAt table key i, s =>
    (record s.tables table key).bind fun values => values[i]?.map fun kvpair => (kvpair, s)
  | _, .setSecond table key i value, s =>
    (record s.tables table key).bind fun values => values[i]?.map fun kvpair =>
      ((), setRecord s table key (values.set i (kvpair.1, value)))
  | _, .emplaceBack table key value, s =>
    (record s.tables table key).map fun values => ((), setRecord s table key (values ++ [value]))
  | _, .subscriptTable table, s => some ((), { s with tables := atTable s.tables table id })
  | _, .subscriptKey table key, s =>
    s.tables[table]?.map fun myTable => ((), setRecord s table key (myTable[key]?.getD []))
  | _, .assign table key values, s =>
    (record s.tables table key).map fun _ => ((), setRecord s table key values)
  | _, .erase table key, s =>
    (record s.tables table key).map fun _ =>
      ((), { s with tables := atTable s.tables table fun myTable => myTable.erase key })
  | _, .increment table key, s =>
    s.tables[table]?.map fun myTable => (((iteratorTo myTable key).tail.head?).map Prod.fst, s)
  | _, .persist env call, s =>
    if settled (engine.call env s.recEngine call).1 then
      some ((engine.call env s.recEngine call).1,
        { s with recEngine := (engine.call env s.recEngine call).2 })
    else none
  | _, .fallOff, _ => none

/-! ### The operations -/

/-- What a client asks for, with the vector it hands in for the result. -/
inductive Request
  | change (op : Op)
  | read (table key : Str) (fields : Option (List Str)) (result : List KVPair)
  | scan (table key : Str) (recordCount : Int) (fields : Option (List Str))
      (result : List (List KVPair))

inductive Reply
  | change (status : Outcome Int)
  | read (status : Int) (result : List KVPair)
  | scan (status : Int) (result : List (List KVPair))
deriving DecidableEq

/-- `FindByTableKey`, and how the operation goes on. -/
def findByTableKey (table key : Str) (absent found : Prog (Access ω) Reply) :
    Prog (Access ω) Reply :=
  .call (.findTable table) fun hasTable =>
    if hasTable then .call (.findKey table key) fun hasKey => if hasKey then found else absent
    else absent

/-- A walk over the pairs of the record, from the `i`-th one on. -/
def walkPairs (table key : Str) (f : List KVPair → KVPair → List KVPair) :
    Nat → Nat → List KVPair → (List KVPair → Prog (Access ω) Reply) → Prog (Access ω) Reply
  | 0, _, result, next => next result
  | turns + 1, i, result, next => .call (.pairAt table key i) fun kvpair =>
    walkPairs table key f turns (i + 1) (f result kvpair) next

/-- The copy of a record, as the copy assignment of a vector makes it. -/
def copyPair (result : List KVPair) (kvpair : KVPair) : List KVPair := result ++ [kvpair]

/-- A turn of `FilterByFields`. -/
def filterPair (fields : List Str) (result : List KVPair) (value : KVPair) : List KVPair :=
  if (fields.find? fun field => value.1 = field).isSome then result ++ [value] else result

def walkRecord (table key : Str) (f : List KVPair → KVPair → List KVPair)
    (next : List KVPair → Prog (Access ω) Reply) : Prog (Access ω) Reply :=
  .call (.size table key) fun size => walkPairs table key f size 0 [] next

def readProgram (table key : Str) (fields : Option (List Str)) (result : List KVPair) :
    Prog (Access ω) Reply :=
  findByTableKey table key (.ret (.read kErrorNoData result)) <|
    match fields with
    | none => walkRecord table key copyPair fun result => .ret (.read kOK result)
    | some fields => walkRecord table key (filterPair fields) fun result =>
      .ret (.read kOK result)

/-- The loop of `Scan`; the way out of it falls off the end of the function. -/
def scanFrom (table : Str) :
    Nat → Option Str → List (List KVPair) → Prog (Access ω) Reply
  | 0, _, result => .call .fallOff fun _ => .ret (.scan kOK result)
  | _ + 1, none, result => .call .fallOff fun _ => .ret (.scan kOK result)
  | turns + 1, some key, result => walkRecord table key copyPair fun values =>
    .call (.increment table key) fun keyIt => scanFrom table turns keyIt (result ++ [values])

def scanProgram (table key : Str) (recordCount : Int) (result : List (List KVPair)) :
    Prog (Access ω) Reply :=
  findByTableKey table key (.ret (.scan kErrorNoData result)) <|
    scanFrom table recordCount.toNat (some key) result

/-- `std::find_if` over the pairs of the record: the first one of the name. -/
def findIf (table key name : Str) :
    Nat → Nat → (Option Nat → Prog (Access ω) Reply) → Prog (Access ω) Reply
  | 0, _, next => next none
  | turns + 1, i, next => .call (.pairAt table key i) fun kvpair =>
    if kvpair.1 = name then next (some i) else findIf table key name turns (i + 1) next

/-- The loop of `Update`. -/
def mergeLoop (table key : Str) (next : Prog (Access ω) Reply) :
    List KVPair → Prog (Access ω) Reply
  | [] => next
  | value :: values => .call (.size table key) fun size =>
    findIf table key value.1 size 0 fun found =>
      match found with
      | some i => .call (.setSecond table key i value.2) fun _ => mergeLoop table key next values
      | none => .call (.emplaceBack table key value) fun _ => mergeLoop table key next values

/-- The end of the three operations.  `std::stoul` and the engine may throw. -/
def persistProgram (env : ω) (key : Str) (call : UInt64 → PersistCall) : Prog (Access ω) Reply :=
  match stoul key with
  | .returned k => .call (.persist env (call k)) fun out =>
    .ret (.change (out >>= fun status =>
      .returned (if status = .kSuccess then kOK else kErrorConflict)))
  | .threw e => .ret (.change (.threw e))
  | _ => .call .fallOff fun _ => .ret (.change .undefined)

def changeProgram (env : ω) : Op → Prog (Access ω) Reply
  | .update table key values =>
    findByTableKey table key (.ret (.change (.returned kErrorNoData))) <|
      mergeLoop table key (persistProgram env key fun k => .update k values) values
  | .insert table key values =>
    .call (.subscriptTable table) fun _ => .call (.subscriptKey table key) fun _ =>
      .call (.assign table key values) fun _ => persistProgram env key fun k => .update k values
  | .delete table key =>
    findByTableKey table key (.ret (.change (.returned kErrorNoData))) <|
      .call (.erase table key) fun _ => persistProgram env key .delete

/-- What an operation does after its `lock_guard`. -/
def program (i : ω × Request) : Prog (Access ω) Reply :=
  match i.2 with
  | .change op => changeProgram i.1 op
  | .read table key fields result => readProgram table key fields result
  | .scan table key recordCount _ result => scanProgram table key recordCount result

/-! ### The accesses of an operation, one after the other -/

/-- The sequential store: what an operation answers, and the store after it. -/
def serve (engine : RecoveryEngine ω σ) (s : NVMDB σ) (i : ω × Request) :
    Option (Reply × NVMDB σ) :=
  match i.2 with
  | .change op =>
    if settled (s.apply engine i.1 op).1 then
      some (.change (s.apply engine i.1 op).1, (s.apply engine i.1 op).2)
    else none
  | .read table key fields result =>
    some (.read (s.read table key fields result).1 (s.read table key fields result).2, s)
  | .scan table key recordCount fields result =>
    match s.scan table key recordCount fields result with
    | (.returned status, result) => some (.scan status result, s)
    | _ => none

section Records

variable {s : NVMDB σ} {table key : Str} {values : List KVPair}

theorem atTable_atTable (tables : Tables) (table : Str) (f g : Table → Table) :
    atTable (atTable tables table f) table g = atTable tables table (g ∘ f) := by
  refine Std.ExtTreeMap.ext_getElem? fun t => ?_
  rw [atTable, atTable, atTable, Std.ExtTreeMap.getElem?_insert, Std.ExtTreeMap.getElem?_insert,
    Std.ExtTreeMap.getElem?_insert, Std.ExtTreeMap.getElem?_insert, if_pos Std.compare_self]
  by_cases h : compare table t = .eq
  · rw [if_pos h, if_pos h]
    rfl
  · rw [if_neg h, if_neg h, if_neg h]

theorem insert_insert (myTable : Table) (key : Str) (values values' : List KVPair) :
    (myTable.insert key values).insert key values' = myTable.insert key values' := by
  refine Std.ExtTreeMap.ext_getElem? fun k => ?_
  rw [Std.ExtTreeMap.getElem?_insert, Std.ExtTreeMap.getElem?_insert,
    Std.ExtTreeMap.getElem?_insert]
  by_cases h : compare key k = .eq
  · rw [if_pos h, if_pos h]
  · rw [if_neg h, if_neg h, if_neg h]

@[simp] theorem setRecord_setRecord (s : NVMDB σ) (table key : Str) (values values' : List KVPair) :
    setRecord (setRecord s table key values) table key values' = setRecord s table key values' := by
  rw [setRecord, setRecord, setRecord, atTable_atTable]
  congr 2
  funext myTable
  exact insert_insert myTable key values values'

@[simp] theorem record_setRecord (s : NVMDB σ) (table key : Str) (values : List KVPair) :
    record (setRecord s table key values).tables table key = some values := by
  rw [setRecord, record_atTable_insert, if_pos ⟨rfl, rfl⟩]

theorem setRecord_self (h : record s.tables table key = some values) :
    setRecord s table key values = s := by
  rw [setRecord, (atTable_insert_eq_iff s.tables table key values).mpr h]

end Records

section Walks

variable {engine : RecoveryEngine ω σ} {s : NVMDB σ} {table key : Str} {values : List KVPair}

theorem exec_walkPairs (h : record s.tables table key = some values)
    (f : List KVPair → KVPair → List KVPair) (next : List KVPair → Prog (Access ω) Reply)
    {turns i : Nat} (hi : i + turns = values.length) (result : List KVPair) :
    (walkPairs table key f turns i result next).exec (handle engine) s =
      (next ((values.drop i).foldl f result)).exec (handle engine) s := by
  induction turns generalizing i result with
  | zero =>
    rw [walkPairs, List.drop_eq_nil_of_le (by omega), List.foldl_nil]
  | succ turns ih =>
    have hlt : i < values.length := by omega
    have hpair : handle engine _ (.pairAt table key i) s = some (values[i], s) := by
      rw [handle, h, Option.bind_some, List.getElem?_eq_getElem hlt, Option.map_some]
    rw [walkPairs, exec_call _ hpair, ih (by omega), List.drop_eq_getElem_cons hlt,
      List.foldl_cons]

theorem exec_walkRecord (h : record s.tables table key = some values)
    (f : List KVPair → KVPair → List KVPair) (next : List KVPair → Prog (Access ω) Reply) :
    (walkRecord table key f next).exec (handle engine) s =
      (next (values.foldl f [])).exec (handle engine) s := by
  have hsize : handle engine _ (.size table key) s = some (values.length, s) := by
    rw [handle, h, Option.map_some]
  rw [walkRecord, exec_call _ hsize, exec_walkPairs h f next (by omega), List.drop_zero]

theorem exec_findIf (h : record s.tables table key = some values) (name : Str)
    (next : Option Nat → Prog (Access ω) Reply) {turns i : Nat} (hi : i + turns = values.length) :
    (findIf table key name turns i next).exec (handle engine) s =
      (next (((values.drop i).findIdx? fun kvpair => kvpair.1 = name).map (· + i))).exec
        (handle engine) s := by
  induction turns generalizing i with
  | zero =>
    rw [findIf, List.drop_eq_nil_of_le (by omega)]
    rfl
  | succ turns ih =>
    have hlt : i < values.length := by omega
    have hpair : handle engine _ (.pairAt table key i) s = some (values[i], s) := by
      rw [handle, h, Option.bind_some, List.getElem?_eq_getElem hlt, Option.map_some]
    rw [findIf, exec_call _ hpair, List.drop_eq_getElem_cons hlt, List.findIdx?_cons]
    by_cases hname : values[i].1 = name
    · simp [hname]
    · rw [if_neg hname, ih (by omega)]
      simp only [hname, decide_false, Bool.false_eq_true, if_false, Option.map_map]
      congr 3
      funext j
      simp only [Function.comp_apply]
      omega

theorem exec_mergeLoop (h : record s.tables table key = some values) (carried : List KVPair)
    (next : Prog (Access ω) Reply) :
    (mergeLoop table key next carried).exec (handle engine) s =
      next.exec (handle engine) (setRecord s table key (carried.foldl mergeValue values)) := by
  induction carried generalizing s values with
  | nil => rw [mergeLoop, List.foldl_nil, setRecord_self h]
  | cons value carried ih =>
    have hsize : handle engine _ (.size table key) s = some (values.length, s) := by
      rw [handle, h, Option.map_some]
    rw [mergeLoop, exec_call _ hsize, exec_findIf h _ _ (by omega), List.drop_zero,
      List.foldl_cons, mergeValue]
    cases hfound : values.findIdx? fun kvpair => kvpair.1 = value.1 with
    | none =>
      have hcall : handle engine _ (.emplaceBack table key value) s =
          some ((), setRecord s table key (values ++ [value])) := by
        rw [handle, h, Option.map_some]
      show (Prog.call _ _).exec (handle engine) s = _
      rw [exec_call _ hcall, ih (record_setRecord s table key _), setRecord_setRecord]
    | some i =>
      obtain ⟨hlt, -⟩ := List.findIdx?_eq_some_iff_getElem.mp hfound
      have hcall : handle engine _ (.setSecond table key i value.2) s =
          some ((), setRecord s table key (values.modify i fun kvpair => (kvpair.1, value.2))) := by
        rw [handle, h, Option.bind_some, List.modify_eq_set, List.getElem?_eq_getElem hlt,
          Option.map_some, Option.getD_some]
      show (Prog.call (.setSecond table key i value.2) _).exec (handle engine) s = _
      rw [exec_call _ hcall, ih (record_setRecord s table key _), setRecord_setRecord]

theorem foldl_copyPair (values result : List KVPair) :
    values.foldl copyPair result = result ++ values := by
  induction values generalizing result with
  | nil => rw [List.foldl_nil, List.append_nil]
  | cons kvpair values ih =>
    rw [List.foldl_cons, ih, copyPair, List.append_assoc]
    rfl

theorem foldl_filterPair (fields : List Str) (values result : List KVPair) :
    values.foldl (filterPair fields) result = result ++ filterByFields values fields := by
  induction values generalizing result with
  | nil => rw [List.foldl_nil, filterByFields, List.filter_nil, List.append_nil]
  | cons value values ih =>
    rw [List.foldl_cons, ih, filterPair, filterByFields, filterByFields, List.filter_cons]
    by_cases h : (fields.find? fun field => value.1 = field).isSome = true
    · rw [if_pos h, if_pos h, List.append_assoc]
      rfl
    · rw [if_neg h, if_neg h]

end Walks

section Operations

variable (engine : RecoveryEngine ω σ) (s : NVMDB σ)

theorem exec_findByTableKey (table key : Str) (absent found : Prog (Access ω) Reply) :
    (findByTableKey table key absent found).exec (handle engine) s =
      if (record s.tables table key).isSome then found.exec (handle engine) s
      else absent.exec (handle engine) s := by
  have hfind : handle engine _ (.findTable table) s = some (s.tables[table]?.isSome, s) := rfl
  rw [findByTableKey, exec_call _ hfind, record]
  cases htable : s.tables[table]? with
  | none => simp
  | some myTable =>
    have hkey : handle engine _ (.findKey table key) s = some (myTable[key]?.isSome, s) := by
      rw [handle, htable, Option.map_some]
    rw [Option.isSome_some, if_pos rfl, exec_call _ hkey, Option.getD_some]
    cases myTable[key]? <;> rfl

theorem exec_persistProgram (env : ω) (key : Str) (call : UInt64 → PersistCall) :
    (persistProgram env key call).exec (handle engine) s =
      if settled (s.persist engine env key call).1 then
        some (.change (s.persist engine env key call).1, (s.persist engine env key call).2)
      else none := by
  rw [persistProgram, NVMDB.persist]
  cases stoul key with
  | returned k =>
    rw [andThen_returned]
    show (Prog.call (.persist env (call k)) _).exec (handle engine) s = _
    rw [Prog.exec, handle]
    cases engine.call env s.recEngine (call k) with
    | mk out recEngine => cases out <;> rfl
  | threw e => rfl
  | aborted => rfl
  | undefined => rfl
  | running => rfl

theorem exec_readProgram (table key : Str) (fields : Option (List Str)) (result : List KVPair) :
    (readProgram table key fields result).exec (handle engine) s =
      some (.read (s.read table key fields result).1 (s.read table key fields result).2, s) := by
  unfold readProgram
  rw [exec_findByTableKey, NVMDB.read, findByTableKey_eq]
  cases h : record s.tables table key with
  | none => rfl
  | some values =>
    rw [Option.isSome_some, if_pos rfl]
    cases fields with
    | none =>
      show (walkRecord table key copyPair _).exec (handle engine) s = _
      rw [exec_walkRecord h, foldl_copyPair]
      rfl
    | some fields =>
      show (walkRecord table key (filterPair fields) _).exec (handle engine) s = _
      rw [exec_walkRecord h, foldl_filterPair]
      rfl

/-- The loop of `Scan` does not come to a return, however far it gets. -/
theorem exec_scanFrom (table : Str) (turns : Nat) (keyIt : Option Str)
    (result : List (List KVPair)) :
    (scanFrom table turns keyIt result).exec (handle engine) s = none := by
  induction turns generalizing keyIt result with
  | zero => rfl
  | succ turns ih =>
    cases keyIt with
    | none => rfl
    | some key =>
      rw [scanFrom]
      cases h : record s.tables table key with
      | none =>
        rw [walkRecord, Prog.exec, handle, h]
        rfl
      | some values =>
        rw [exec_walkRecord h, Prog.exec, handle]
        cases s.tables[table]? with
        | none => rfl
        | some myTable => exact ih _ _

theorem exec_scanProgram (table key : Str) (recordCount : Int) (fields : Option (List Str))
    (result : List (List KVPair)) :
    (scanProgram table key recordCount result).exec (handle engine) s =
      match s.scan table key recordCount fields result with
      | (.returned status, result) => some (.scan status result, s)
      | _ => none := by
  rw [scanProgram, exec_findByTableKey]
  cases h : record s.tables table key with
  | none =>
    rw [scan_of_no_record h]
    rfl
  | some values =>
    rw [scan_of_record (by rw [h]; rfl), Option.isSome_some, if_pos rfl]
    exact exec_scanFrom engine s table recordCount.toNat (some key) result

theorem exec_insert (env : ω) (table key : Str) (values : List KVPair) :
    (changeProgram env (.insert table key values)).exec (handle engine) s =
      (persistProgram env key fun k => .update k values).exec (handle engine)
        (setRecord s table key values) := by
  have htable : handle engine _ (.subscriptTable table) s =
      some ((), { s with tables := atTable s.tables table id }) := rfl
  have hthere : (atTable s.tables table id)[table]? = some (s.tables[table]?.getD ∅) := by
    rw [atTable, Std.ExtTreeMap.getElem?_insert, if_pos Std.compare_self]
    rfl
  have hsame (values : List KVPair) :
      setRecord { s with tables := atTable s.tables table id } table key values =
        setRecord s table key values := by
    rw [setRecord, setRecord, atTable_atTable]
    rfl
  have hkey : handle engine _ (.subscriptKey table key)
      { s with tables := atTable s.tables table id } =
        some ((), setRecord s table key ((s.tables[table]?.getD ∅)[key]?.getD [])) := by
    rw [handle, hthere, Option.map_some, hsame]
  have hassign (old : List KVPair) : handle engine _ (.assign table key values)
      (setRecord s table key old) = some ((), setRecord s table key values) := by
    rw [handle, record_setRecord, Option.map_some, setRecord_setRecord]
  rw [changeProgram, exec_call _ htable, exec_call _ hkey, exec_call _ (hassign _)]

theorem exec_changeProgram (env : ω) (op : Op) :
    (changeProgram env op).exec (handle engine) s =
      if settled (s.apply engine env op).1 then
        some (.change (s.apply engine env op).1, (s.apply engine env op).2)
      else none := by
  cases op with
  | insert table key values => rw [exec_insert, exec_persistProgram]; rfl
  | update table key values =>
    rw [changeProgram, exec_findByTableKey, NVMDB.apply, NVMDB.update, findByTableKey_eq]
    cases h : record s.tables table key with
    | none => rfl
    | some storedValues =>
      rw [Option.isSome_some, if_pos rfl, exec_mergeLoop h, exec_persistProgram]
      rfl
  | delete table key =>
    rw [changeProgram, exec_findByTableKey, NVMDB.apply, NVMDB.delete, findByTableKey_eq]
    cases h : record s.tables table key with
    | none => rfl
    | some storedValues =>
      have herase : handle engine _ (.erase table key) s =
          some ((), { s with tables := atTable s.tables table fun myTable => myTable.erase key }) := by
        rw [handle, h, Option.map_some]
      rw [Option.isSome_some, if_pos rfl, exec_call _ herase, exec_persistProgram]
      rfl

/-- **The accesses of an operation are the operation.** -/
theorem exec_program (i : ω × Request) :
    (program i).exec (handle engine) s = serve engine s i := by
  obtain ⟨env, request⟩ := i
  cases request with
  | change op => exact exec_changeProgram engine s env op
  | read table key fields result => exact exec_readProgram engine s table key fields result
  | scan table key recordCount fields result =>
    exact exec_scanProgram engine s table key recordCount fields result

end Operations

/-! ### Threads -/

/-- The threads of the clients: the store with its mutex, and all operations in the
    order in which they were called. -/
abbrev Threads (ω σ : Type) := Clients (Access ω) (ω × Request) Reply (NVMDB σ)

namespace Threads

/-- No record, the mutex free and nothing called yet. -/
def init (e : σ) : Threads ω σ := Clients.init ⟨∅, e⟩

def step (engine : RecoveryEngine ω σ) : Threads ω σ → Event (ω × Request) → Threads ω σ :=
  Clients.step (handle engine) program

end Threads

section Histories

variable (engine : RecoveryEngine ω σ)

/-- The calls of the sequential store in a history.  A scan that returns has found no
    record, and leaves none. -/
def callOf (i : ω × Request) : Option (ω × Call) :=
  match i.2 with
  | .change op => some (i.1, .change op)
  | .read table key fields _ => some (i.1, .read table key fields)
  | .scan _ _ _ _ _ => none

def calls (history : List ((ω × Request) × Reply)) : List (ω × Call) :=
  history.filterMap fun entry => callOf entry.1

/-- An operation that is served leaves the store that its call leaves. -/
theorem run_callOf {s s' : NVMDB σ} {i : ω × Request} {reply : Reply}
    (h : serve engine s i = some (reply, s')) :
    run (NVMDB.callStep engine) s (callOf i).toList = s' := by
  obtain ⟨env, request⟩ := i
  cases request with
  | change op =>
    change (if settled (s.apply engine env op).1 then
      some (Reply.change (s.apply engine env op).1, (s.apply engine env op).2) else none) = _ at h
    by_cases hsettled : settled (s.apply engine env op).1 = true
    · rw [if_pos hsettled] at h
      exact congrArg Prod.snd (Option.some.inj h)
    · rw [if_neg hsettled] at h
      cases h
  | read table key fields result => exact congrArg Prod.snd (Option.some.inj h)
  | scan table key recordCount fields result =>
    show s = s'
    cases hscan : s.scan table key recordCount fields result with
    | mk out result' =>
      simp only [serve, hscan] at h
      cases out with
      | returned status => exact congrArg Prod.snd (Option.some.inj h)
      | threw e => cases h
      | aborted => cases h
      | undefined => cases h
      | running => cases h

/-- A legal history leaves the store that its calls leave. -/
theorem run_calls {s s' : NVMDB σ} {history : List ((ω × Request) × Reply)}
    (h : Legal (handle engine) program s history s') :
    run (NVMDB.callStep engine) s (calls history) = s' := by
  induction history generalizing s with
  | nil => exact h
  | cons entry history ih =>
    obtain ⟨next, hexec, hrest⟩ := h
    rw [exec_program] at hexec
    have hhead : calls (entry :: history) = (callOf entry.1).toList ++ calls history := by
      rw [calls, List.filterMap_cons]
      cases callOf entry.1 <;> rfl
    rw [hhead, run_append, run_callOf engine hexec]
    exact ih hrest

/-- The store after the operations of the list, taken one after the other. -/
def storeAfter (e : σ) (s : Threads ω σ) (order : List Nat) : NVMDB σ :=
  run (NVMDB.callStep engine) ⟨∅, e⟩ (calls (s.answers order))

def Request.Distinct : Request → Prop
  | .change op => op.Distinct
  | _ => True

/-- **The threads answer as the sequential store does.**  The operations that have
    returned have an order, which respects real time: each answers as the sequential
    store does after those before it, and the store is the one that all of them leave
    whenever the mutex is free.  After any of them it is, seen as a map of records,
    what the operations so far have made of no record at all. -/
structure Linearizable (e : σ) (s : Threads ω σ) (order : List Nat) : Prop where
  nodup : order.Nodup
  returned : ∀ n, n ∈ order ↔ s.Returned n
  realTime : order.Pairwise fun n m => ∀ r, s.ops[n]? = some r → m ∉ r.doneBefore
  answers : ∀ before n rest, order = before ++ n :: rest → ∀ r reply, s.ops[n]? = some r →
    r.prog.result = some reply →
      serve engine (storeAfter engine e s before) r.op =
        some (reply, storeAfter engine e s (before ++ [n]))
  free : s.mem.held = false → s.mem.mem = storeAfter engine e s order
  records : (∀ r ∈ s.ops, r.op.2.Distinct) → ∀ before rest, order = before ++ rest →
    RefinesRecords engine (storeAfter engine e s before) (operations (calls (s.answers before)))

theorem mem_calls {history : List ((ω × Request) × Reply)} {env : ω} {op : Op}
    (h : (env, .change op) ∈ calls history) :
    ∃ reply, ((env, .change op), reply) ∈ history := by
  obtain ⟨⟨⟨env', request⟩, reply⟩, hentry, hcall⟩ := List.mem_filterMap.mp h
  cases request with
  | change op' =>
    obtain ⟨rfl, hop⟩ := Prod.mk.inj (Option.some.inj hcall)
    obtain rfl := Call.change.inj hop
    exact ⟨reply, hentry⟩
  | read table key fields result =>
    obtain ⟨-, hop⟩ := Prod.mk.inj (Option.some.inj hcall)
    cases hop
  | scan table key recordCount fields result => cases hcall

theorem linearizable_of_linearized {e : σ} {s : Threads ω σ} {order : List Nat} {db : NVMDB σ}
    (h : s.Linearized (handle engine) program ⟨∅, e⟩ order db) : Linearizable engine e s order where
  nodup := h.nodup
  returned := h.returned
  realTime := h.realTime
  answers := by
    rintro before n rest rfl r reply hr hreply
    have hanswer : s.answerOf n = some (r.op, reply) := by
      rw [Clients.answerOf, hr, Option.bind_some, hreply, Option.map_some]
    have hlegal := h.legal
    rw [Clients.answers, List.filterMap_append, List.filterMap_cons, hanswer] at hlegal
    obtain ⟨next, hbefore, last, hexec, -⟩ := (legal_append _ _).mp hlegal
    have hupTo : Legal (handle engine) program ⟨∅, e⟩ (s.answers (before ++ [n])) last := by
      rw [Clients.answers, List.filterMap_append, List.filterMap_cons, hanswer]
      exact (legal_append _ _).mpr ⟨next, hbefore, (legal_singleton _ _).mpr hexec⟩
    rw [exec_program] at hexec
    rw [show storeAfter engine e s before = next from run_calls engine hbefore,
      show storeAfter engine e s (before ++ [n]) = last from run_calls engine hupTo]
    exact hexec
  free := by
    intro hfree
    rw [h.free hfree]
    exact (run_calls engine h.legal).symm
  records := by
    rintro hdistinct before rest rfl
    have hall : ∀ op ∈ operations (calls (s.answers before)), op.Distinct := by
      intro op hop
      obtain ⟨⟨env, call⟩, hcall, hchange⟩ := List.mem_filterMap.mp hop
      cases call with
      | read table key fields => cases hchange
      | change op' =>
        obtain rfl := Option.some.inj hchange
        obtain ⟨reply, hentry⟩ := mem_calls hcall
        obtain ⟨n, -, hn⟩ := List.mem_filterMap.mp hentry
        obtain ⟨r, hr, hanswer⟩ := Option.bind_eq_some_iff.mp hn
        obtain ⟨reply', -, heq⟩ := Option.map_eq_some_iff.mp hanswer
        have hr' := hdistinct r (List.mem_of_getElem? hr)
        rw [(Prod.mk.inj heq).1] at hr'
        exact hr'
    obtain ⟨hrecords, hnames⟩ := recordsOf_run engine e _ hall
    exact refinesRecords engine hnames hrecords

/-- **The store is linearizable under its mutex**, whichever the engine, whatever the
    clients ask for and however their threads are scheduled. -/
theorem linearizable (e : σ) (es : List (Event (ω × Request))) :
    ∃ order, Linearizable engine e (run (Threads.step engine) (Threads.init e) es) order := by
  obtain ⟨order, db, h⟩ := Clients.linearized_run (handle engine) program ⟨∅, e⟩ es
  exact ⟨order, linearizable_of_linearized engine h⟩

end Histories

/-! ### No deadlock -/

/-- From the calls that `A` allows the engine comes back, and `I` is kept. -/
structure ComesBack (engine : RecoveryEngine ω σ) (A : ω → PersistCall → Prop) (I : σ → Prop) :
    Prop where
  settles : ∀ env call e, A env call → I e → settled (engine.call env e call).1
  keeps : ∀ env call e, A env call → I e → I (engine.call env e call).2

/-- The request makes allowed calls of the engine only, and is no scan. -/
def Request.Allowed (A : ω → PersistCall → Prop) (env : ω) : Request → Prop
  | .change (.insert _ _ values) => ∀ k, A env (.update k values)
  | .change (.update _ _ values) => ∀ k, A env (.update k values)
  | .change (.delete _ _) => ∀ k, A env (.delete k)
  | .read _ _ _ _ => True
  | .scan _ _ _ _ _ => False

section Completion

variable {engine : RecoveryEngine ω σ} {A : ω → PersistCall → Prop} {I : σ → Prop}

theorem settled_stoul (key : Str) : settled (stoul key) = true := by
  rw [stoul]
  by_cases hempty : (scanNumber key).2 = []
  · rw [if_pos hempty]
    rfl
  · rw [if_neg hempty]
    by_cases hrange : 2 ^ 64 ≤ digitsValue (scanNumber key).2
    · rw [if_pos hrange]
      rfl
    · rw [if_neg hrange]
      cases (scanNumber key).1 <;> rfl

theorem settled_persist (h : ComesBack engine A I) {env : ω} {call : UInt64 → PersistCall}
    (hcall : ∀ k, A env (call k)) (tables : Tables) {e : σ} (hI : I e) (key : Str) :
    settled (NVMDB.persist engine env ⟨tables, e⟩ key call).1 = true ∧
      I (NVMDB.persist engine env ⟨tables, e⟩ key call).2.recEngine := by
  have hkey := settled_stoul key
  rw [NVMDB.persist]
  cases hstoul : stoul key with
  | returned k =>
    have hsettles := h.settles env (call k) e (hcall k) hI
    have hkeeps := h.keeps env (call k) e (hcall k) hI
    rw [andThen_returned]
    cases hout : engine.call env e (call k) with
    | mk out recEngine =>
      rw [hout] at hsettles hkeeps
      cases out with
      | returned status => exact ⟨rfl, hkeeps⟩
      | threw e => exact ⟨rfl, hkeeps⟩
      | aborted => cases hsettles
      | undefined => cases hsettles
      | running => cases hsettles
  | threw e => exact ⟨rfl, hI⟩
  | aborted => rw [hstoul] at hkey; cases hkey
  | undefined => rw [hstoul] at hkey; cases hkey
  | running => rw [hstoul] at hkey; cases hkey

/-- An operation run alone comes to its end. -/
theorem serve_of_allowed (h : ComesBack engine A I) {env : ω} {request : Request}
    (hallowed : request.Allowed A env) {s : NVMDB σ} (hI : I s.recEngine) :
    ∃ reply s', serve engine s (env, request) = some (reply, s') ∧ I s'.recEngine := by
  have hchange : ∀ op, settled (s.apply engine env op).1 = true ∧
      I (s.apply engine env op).2.recEngine →
        ∃ reply s', serve engine s (env, .change op) = some (reply, s') ∧ I s'.recEngine := by
    rintro op ⟨hsettled, hkept⟩
    exact ⟨_, _, if_pos hsettled, hkept⟩
  cases request with
  | change op =>
    apply hchange
    cases op with
    | insert table key values => exact settled_persist h hallowed _ hI key
    | update table key values =>
      rw [NVMDB.apply, NVMDB.update, findByTableKey_eq]
      cases record s.tables table key with
      | none => exact ⟨rfl, hI⟩
      | some storedValues => exact settled_persist h hallowed _ hI key
    | delete table key =>
      rw [NVMDB.apply, NVMDB.delete, findByTableKey_eq]
      cases record s.tables table key with
      | none => exact ⟨rfl, hI⟩
      | some storedValues => exact settled_persist h hallowed _ hI key
  | read table key fields result => exact ⟨_, s, rfl, hI⟩
  | scan table key recordCount fields result => cases hallowed

/-- **No deadlock.**  While the engine comes back from its calls and no scan has been
    begun, whatever the threads have done so far, those in the middle of an operation
    can be scheduled so that every operation returns; no operation is lost and none is
    added. -/
theorem threads_complete (h : ComesBack engine A I) {e : σ} (hI : I e)
    (es : List (Event (ω × Request)))
    (hallowed : ∀ entry ∈ (run (Threads.step engine) (Threads.init e) es).begun,
      entry.2.2.Allowed A entry.2.1) :
    ∃ clients : List Nat,
      Clients.AllReturned (run (Threads.step engine) (Threads.init e) (es ++ clients.map .call)) ∧
        (run (Threads.step engine) (Threads.init e) (es ++ clients.map .call)).begun =
          (run (Threads.step engine) (Threads.init e) es).begun := by
  have hstart : Clients.Inv (handle engine) program ⟨∅, e⟩ (Threads.init e) [] ⟨∅, e⟩ none :=
    Clients.inv_init _
  obtain ⟨⟨order, db, holder, hinv⟩, hone⟩ :=
    Clients.inv_runFrom hstart (Pool.oneAtATime_nil _) es
  obtain ⟨clients, hall, hsame⟩ := Clients.exists_completion (I := fun db => I db.recEngine)
    (P := fun i : ω × Request => i.2.Allowed A i.1)
    (fun i hi db hdb => by rw [exec_program]; exact serve_of_allowed h hi hdb) hI hinv hone hallowed
  refine ⟨clients, ?_⟩
  rw [run_append]
  exact ⟨hall, hsame⟩

end Completion

/-- An engine that turns a call into a tuple comes back from the calls whose tuple it
    can build, if its store does. -/
theorem comesBack_ofStore {store : ω → σ → Tuple → Outcome RecoveryStatus × σ}
    (h : ∀ env e tuple, settled (store env e tuple).1 = true) :
    ComesBack (RecoveryEngine.ofStore store) (fun _ call => settled call.tuple = true)
      fun _ => True where
  settles := by
    intro env call e hcall _
    rw [call_ofStore, persistTuple]
    cases htuple : call.tuple with
    | returned tuple => exact h env e tuple
    | threw exn => rfl
    | aborted => rw [htuple] at hcall; cases hcall
    | undefined => rw [htuple] at hcall; cases hcall
    | running => rw [htuple] at hcall; cases hcall
  keeps := fun _ _ _ _ _ => trivial

theorem comesBack_blk :
    ComesBack NvmBlk.engine (fun _ call => settled call.tuple = true) fun _ => True := by
  refine comesBack_ofStore fun env e tuple => ?_
  have hcases := NvmBlk.NVMBlkEngine.stored_cases env e tuple
  generalize e.updateTuple env tuple = r at hcases ⊢
  cases hcases <;> rfl

/-- Whether the tuple of a write can be built does not depend on the key. -/
theorem settled_update (k : UInt64) (values : List KVPair) :
    settled (PersistCall.update k values).tuple = settled (dbToRaw values) := by
  rw [PersistCall.tuple]
  cases dbToRaw values <;> rfl

/-- A thread that has begun an insert and taken the mutex, and a thread that waits for
    it to read the same record. -/
def insertBesideRead : List (Event (NvmBlk.BlkEnv × Request)) :=
  [.begin 0 ({}, .change (.insert (str "t") (str "1") [(fieldName 0, str "x")])),
    .call 0, .begin 1 ({}, .read (str "t") (str "1") none []), .call 1]

theorem threads_complete_insertBesideRead :
    ∃ clients : List Nat,
      Clients.AllReturned (run (Threads.step NvmBlk.engine)
        (Threads.init (NvmBlk.NVMBlkEngine.create 1)) (insertBesideRead ++ clients.map .call)) ∧
      (run (Threads.step NvmBlk.engine) (Threads.init (NvmBlk.NVMBlkEngine.create 1))
        (insertBesideRead ++ clients.map .call)).begun =
          (run (Threads.step NvmBlk.engine) (Threads.init (NvmBlk.NVMBlkEngine.create 1))
            insertBesideRead).begun := by
  refine threads_complete comesBack_blk trivial insertBesideRead ?_
  have hbegun : (run (Threads.step NvmBlk.engine) (Threads.init (NvmBlk.NVMBlkEngine.create 1))
      insertBesideRead).begun =
        [(0, ({}, .change (.insert (str "t") (str "1") [(fieldName 0, str "x")]))),
          (1, ({}, .read (str "t") (str "1") none []))] := rfl
  rw [hbegun]
  intro entry hentry
  rcases List.mem_cons.mp hentry with rfl | hentry
  · intro k
    show settled (PersistCall.update k _).tuple = true
    rw [settled_update]
    decide +kernel
  · obtain rfl := List.mem_singleton.mp hentry
    trivial

end NvrecYcsb.NvmDbThreads
