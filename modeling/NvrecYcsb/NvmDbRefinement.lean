/-
  NvrecYcsb/NvmDbRefinement.lean
  ==============================
  **The in-memory store as a map of records.**

  `Read` answers from `tables_` alone, and every operation changes `tables_`
  before it calls the engine, so what is read depends on the operations that were
  called and not on what the engine made of them.  Seen as maps, the tables follow
  the store of the library (`recordsOf_run`); the records themselves are lists of
  pairs with distinct names, and their order is that of the pairs.
-/
import NvrecYcsb.NvmDb
import NvrecYcsb.RecordStore
import NvrecYcsb.Runs

namespace NvrecYcsb.NvmDb

open CppRuntime RecoveryDefs RecoveryInterface RecordReplay RecordStore Runs
open NvmBlk (BlkEnv NVMBlkEngine)

/-! ### Records as maps -/

/-- A record as a map from field names to values. -/
def asMap (values : List KVPair) : Str → Option Str := fun name => values.lookup name

/-- The tables as a store of records, by table and key. -/
def recordsOf (tables : Tables) : Store (Str × Str) Str Str := fun place =>
  (record tables place.1 place.2).map asMap

/-- An operation as a command about the record of its table and key. -/
def Op.command : Op → (Str × Str) × Command Str Str
  | .insert table key values => ((table, key), .insert values)
  | .update table key values => ((table, key), .update values)
  | .delete table key => ((table, key), .delete)

/-- An insert carries distinct field names. -/
def Op.Distinct : Op → Prop
  | .insert _ _ values => (values.map Prod.fst).Nodup
  | _ => True

instance : DecidablePred Op.Distinct
  | .insert _ _ values => inferInstanceAs (Decidable (values.map Prod.fst).Nodup)
  | .update _ _ _ => isTrue trivial
  | .delete _ _ => isTrue trivial

theorem asMap_foldl_mergeValue (values storedValues : List KVPair) :
    asMap (values.foldl mergeValue storedValues) = overlay (carried values) (asMap storedValues) := by
  funext name
  exact lookup_foldl_mergeValue values storedValues name

theorem asMap_of_nodup {values : List KVPair} (h : (values.map Prod.fst).Nodup) :
    asMap values = carried values := by
  funext name
  exact (carried_of_nodup h name).symm

/-- **An operation follows the store.** -/
theorem recordsOf_tablesAfter (tables : Tables) {op : Op} (hop : op.Distinct) :
    recordsOf (op.tablesAfter tables) = step (recordsOf tables) op.command := by
  funext place
  obtain ⟨table, key⟩ := place
  have hplace : op.command.1 = (table, key) ↔ op.table = table ∧ op.key = key := by
    cases op <;> exact Prod.mk_inj
  rw [step_apply, recordsOf, record_tablesAfter]
  by_cases hat : op.table = table ∧ op.key = key
  · rw [if_pos hat, if_pos (hplace.mpr hat)]
    cases op with
    | insert _ _ values => exact congrArg some (asMap_of_nodup hop)
    | update _ _ values =>
      show ((record tables table key).map (values.foldl mergeValue)).map asMap =
        ((record tables table key).map asMap).map (overlay (carried values))
      cases record tables table key with
      | none => rfl
      | some storedValues => exact congrArg some (asMap_foldl_mergeValue values storedValues)
    | delete _ _ => rfl
  · rw [if_neg hat, if_neg fun h => hat (hplace.mp h)]
    rfl

/-! ### Records with distinct names -/

def DistinctNames (tables : Tables) : Prop :=
  ∀ table key values, record tables table key = some values → (values.map Prod.fst).Nodup

theorem names_mergeValue (storedValues : List KVPair) (value : KVPair) :
    (mergeValue storedValues value).map Prod.fst =
      if value.1 ∈ storedValues.map Prod.fst then storedValues.map Prod.fst
      else storedValues.map Prod.fst ++ [value.1] := by
  induction storedValues with
  | nil => rfl
  | cons p storedValues ih =>
    rw [mergeValue_cons, List.map_cons]
    by_cases hp : p.1 = value.1
    · rw [if_pos hp, List.map_cons, if_pos (hp ▸ List.mem_cons_self)]
    · rw [if_neg hp, List.map_cons, ih]
      by_cases hmem : value.1 ∈ storedValues.map Prod.fst
      · rw [if_pos hmem, if_pos (List.mem_cons_of_mem _ hmem)]
      · have hnot : value.1 ∉ p.1 :: storedValues.map Prod.fst := by
          rw [List.mem_cons, not_or]
          exact ⟨Ne.symm hp, hmem⟩
        rw [if_neg hmem, if_neg hnot]
        rfl

theorem nodup_foldl_mergeValue {storedValues : List KVPair}
    (h : (storedValues.map Prod.fst).Nodup) (values : List KVPair) :
    ((values.foldl mergeValue storedValues).map Prod.fst).Nodup := by
  induction values generalizing storedValues with
  | nil => exact h
  | cons value values ih =>
    refine ih ?_
    rw [names_mergeValue]
    by_cases hmem : value.1 ∈ storedValues.map Prod.fst
    · rw [if_pos hmem]
      exact h
    · rw [if_neg hmem]
      exact List.nodup_append.mpr ⟨h, List.nodup_singleton _, by
        intro a ha b hb
        rw [List.mem_singleton.mp hb]
        rintro rfl
        exact hmem ha⟩

theorem distinctNames_tablesAfter {tables : Tables} (h : DistinctNames tables) {op : Op}
    (hop : op.Distinct) : DistinctNames (op.tablesAfter tables) := by
  apply forall_record_tablesAfter h
  · rintro _ _ values rfl
    exact hop
  · rintro _ _ values storedValues rfl hstored
    exact nodup_foldl_mergeValue hstored values

/-! ### What the calls return -/

theorem filterByFields_eq (values : List KVPair) (fields : List Str) :
    filterByFields values fields = values.filter fun p => p.1 ∈ fields := by
  refine List.filter_congr fun p _ => ?_
  rw [Bool.eq_iff_iff, List.find?_isSome, decide_eq_true_eq]
  constructor
  · rintro ⟨field, hfield, heq⟩
    rw [decide_eq_true_eq.mp heq]
    exact hfield
  · intro hmem
    exact ⟨p.1, hmem, decide_eq_true rfl⟩

theorem read_eq {σ : Type} (s : NVMDB σ) (table key : Str) (fields : Option (List Str))
    (result : List KVPair) :
    s.read table key fields result =
      match record s.tables table key with
      | none => (kErrorNoData, result)
      | some values => (kOK, match fields with
          | none => values
          | some fields => values.filter fun p => p.1 ∈ fields) := by
  rw [NVMDB.read, findByTableKey_eq]
  cases record s.tables table key with
  | none => rfl
  | some values =>
    cases fields with
    | none => rfl
    | some fields => exact congrArg (Prod.mk kOK) (filterByFields_eq values fields)

/-- A call that goes to the engine does not report a missing record. -/
theorem persist_ne_noData {ω σ : Type} (engine : RecoveryEngine ω σ) (env : ω) (s : NVMDB σ)
    (key : Str) (call : UInt64 → PersistCall) :
    (s.persist engine env key call).1 ≠ .returned kErrorNoData := by
  rw [NVMDB.persist]
  cases stoul key with
  | returned k =>
    rw [andThen_returned]
    cases hcall : engine.call env s.recEngine (call k) with
    | mk result recEngine =>
      cases result with
      | returned status =>
        intro h
        by_cases hstatus : status = .kSuccess
        · simp [hstatus, kOK, kErrorNoData] at h
        · simp [hstatus, kErrorConflict, kErrorNoData] at h
      | threw e => exact fun h => by cases h
      | aborted => exact fun h => by cases h
      | undefined => exact fun h => by cases h
      | running => exact fun h => by cases h
  | threw e => exact fun h => by cases h
  | aborted => exact fun h => by cases h
  | undefined => exact fun h => by cases h
  | running => exact fun h => by cases h

theorem persist_of_success {ω σ : Type} {engine : RecoveryEngine ω σ} {env : ω} {s : NVMDB σ}
    {key : Str} {k : UInt64} {call : UInt64 → PersistCall} (hkey : stoul key = .returned k)
    (hsuccess : (engine.call env s.recEngine (call k)).1 = .returned .kSuccess) :
    (s.persist engine env key call).1 = .returned kOK := by
  rw [NVMDB.persist, hkey, andThen_returned]
  cases hcall : engine.call env s.recEngine (call k) with
  | mk out recEngine =>
    rw [hcall] at hsuccess
    obtain rfl : out = .returned .kSuccess := hsuccess
    rfl

theorem update_noData_iff {ω σ : Type} (engine : RecoveryEngine ω σ) (env : ω) (s : NVMDB σ)
    (table key : Str) (values : List KVPair) :
    (s.update engine env table key values).1 = .returned kErrorNoData ↔
      record s.tables table key = none := by
  rw [NVMDB.update, findByTableKey_eq]
  cases record s.tables table key with
  | none => exact ⟨fun _ => rfl, fun _ => rfl⟩
  | some storedValues =>
    exact iff_of_false (persist_ne_noData _ _ _ _ _) (Option.some_ne_none storedValues)

theorem delete_noData_iff {ω σ : Type} (engine : RecoveryEngine ω σ) (env : ω) (s : NVMDB σ)
    (table key : Str) :
    (s.delete engine env table key).1 = .returned kErrorNoData ↔
      record s.tables table key = none := by
  rw [NVMDB.delete, findByTableKey_eq]
  cases record s.tables table key with
  | none => exact ⟨fun _ => rfl, fun _ => rfl⟩
  | some storedValues =>
    exact iff_of_false (persist_ne_noData _ _ _ _ _) (Option.some_ne_none storedValues)

/-- An operation leaves the answers about other records alone. -/
theorem read_apply_ne {ω σ : Type} (engine : RecoveryEngine ω σ) (env : ω) (s : NVMDB σ) (op : Op)
    {table key : Str} (hne : (op.table, op.key) ≠ (table, key)) (fields : Option (List Str))
    (result : List KVPair) :
    (s.apply engine env op).2.read table key fields result = s.read table key fields result := by
  have hat : ¬(op.table = table ∧ op.key = key) := fun h => hne (Prod.ext h.1 h.2)
  rw [read_eq, read_eq, tables_apply, record_tablesAfter, if_neg hat]

/-! ### Calls of the engine -/

/-- The call of the engine that an operation makes, if it makes one. -/
def Op.engineCall (tables : Tables) (k : UInt64) : Op → Option PersistCall
  | .insert _ _ values => some (.update k values)
  | .update table key values => (record tables table key).map fun _ => .update k values
  | .delete table key => (record tables table key).map fun _ => .delete k

/-- The engine is as it was, or has served the call of the operation. -/
def Op.Serves {ω σ : Type} (engine : RecoveryEngine ω σ) (env : ω) (s : NVMDB σ) (op : Op)
    (e : σ) : Prop :=
  e = s.recEngine ∨ ∃ k call, stoul op.key = .returned k ∧ op.engineCall s.tables k = some call ∧
    e = (engine.call env s.recEngine call).2

theorem serves_persist {ω σ : Type} (engine : RecoveryEngine ω σ) (env : ω) (s : NVMDB σ)
    (tables : Tables) (op : Op) (call : UInt64 → PersistCall)
    (hcall : ∀ k, op.engineCall s.tables k = some (call k)) :
    op.Serves engine env s
      (NVMDB.persist engine env { s with tables := tables } op.key call).2.recEngine := by
  rw [NVMDB.persist]
  cases hkey : stoul op.key with
  | returned k =>
    refine Or.inr ⟨k, call k, hkey, hcall k, ?_⟩
    rw [andThen_returned]
    cases engine.call env s.recEngine (call k) with
    | mk out recEngine => cases out <;> rfl
  | threw e => exact Or.inl rfl
  | aborted => exact Or.inl rfl
  | undefined => exact Or.inl rfl
  | running => exact Or.inl rfl

theorem serves_apply {ω σ : Type} (engine : RecoveryEngine ω σ) (env : ω) (s : NVMDB σ)
    (op : Op) : op.Serves engine env s (s.apply engine env op).2.recEngine := by
  cases op with
  | insert table key values =>
    rw [NVMDB.apply, NVMDB.insert]
    exact serves_persist engine env s _ (.insert table key values) _ fun _ => rfl
  | update table key values =>
    rw [NVMDB.apply, NVMDB.update, findByTableKey_eq]
    cases hrecord : record s.tables table key with
    | none => exact Or.inl rfl
    | some storedValues =>
      refine serves_persist engine env s _ (.update table key values) _ fun k => ?_
      rw [Op.engineCall, hrecord, Option.map_some]
  | delete table key =>
    rw [NVMDB.apply, NVMDB.delete, findByTableKey_eq]
    cases hrecord : record s.tables table key with
    | none => exact Or.inl rfl
    | some storedValues =>
      refine serves_persist engine env s _ (.delete table key) _ fun k => ?_
      rw [Op.engineCall, hrecord, Option.map_some]

/-! ### Runs -/

/-- A call of a client.  The mutex makes each call one step. -/
inductive Call where
  | change (op : Op)
  | read (table key : Str) (fields : Option (List Str))

/-- The state after a call; a read leaves it as it is. -/
def NVMDB.callStep {ω σ : Type} (engine : RecoveryEngine ω σ) (s : NVMDB σ) (i : ω × Call) :
    NVMDB σ :=
  match i.2 with
  | .change op => (s.apply engine i.1 op).2
  | .read _ _ _ => s

/-- The operations among the calls, in the order in which the mutex was taken. -/
def operations {ω : Type} (calls : List (ω × Call)) : List Op :=
  calls.filterMap fun i =>
    match i.2 with
    | .change op => some op
    | .read _ _ _ => none

/-- What the operations so far have made of the record of a place: the pairs of the
    last insert, overridden by the updates since; nothing after a delete. -/
def remembered (ops : List Op) (table key : Str) : Option (Str → Option Str) :=
  after (ops.map Op.command) (table, key)

/-- **The store answers as a map of records would**, after the operations `ops`. -/
structure RefinesRecords {ω σ : Type} (engine : RecoveryEngine ω σ) (s : NVMDB σ)
    (ops : List Op) : Prop where
  distinct : ∀ table key values, record s.tables table key = some values →
    (values.map Prod.fst).Nodup
  readAll : ∀ table key result fields, remembered ops table key = some fields →
    ∃ values, s.read table key none result = (kOK, values) ∧ (values.map Prod.fst).Nodup ∧
      ∀ name, values.lookup name = fields name
  readSome : ∀ table key result names values, s.read table key none result = (kOK, values) →
    s.read table key (some names) result = (kOK, values.filter fun p => p.1 ∈ names)
  readNoData : ∀ table key result fields,
    (s.read table key fields result).1 = kErrorNoData ↔ remembered ops table key = none
  updateNoData : ∀ env table key values,
    (s.update engine env table key values).1 = .returned kErrorNoData ↔
      remembered ops table key = none
  deleteNoData : ∀ env table key,
    (s.delete engine env table key).1 = .returned kErrorNoData ↔ remembered ops table key = none
  others : ∀ env op table key result fields, (op.table, op.key) ≠ (table, key) →
    (s.apply engine env op).2.read table key fields result = s.read table key fields result

theorem refinesRecords {ω σ : Type} (engine : RecoveryEngine ω σ) {s : NVMDB σ} {ops : List Op}
    (hnames : DistinctNames s.tables) (hrecords : recordsOf s.tables = after (ops.map Op.command)) :
    RefinesRecords engine s ops := by
  have hremembered : ∀ table key, remembered ops table key =
      (record s.tables table key).map asMap := fun table key =>
    (congrFun hrecords (table, key)).symm
  have hnone : ∀ table key, remembered ops table key = none ↔ record s.tables table key = none := by
    intro table key
    rw [hremembered, Option.map_eq_none_iff]
  refine ⟨hnames, ?_, ?_, ?_, ?_, ?_, ?_⟩
  · intro table key result fields hfields
    rw [hremembered] at hfields
    obtain ⟨values, hvalues, rfl⟩ := Option.map_eq_some_iff.mp hfields
    refine ⟨values, ?_, hnames table key values hvalues, fun _ => rfl⟩
    rw [read_eq, hvalues]
  · intro table key result names values hread
    rw [read_eq] at hread ⊢
    cases hrecord : record s.tables table key with
    | none =>
      rw [hrecord] at hread
      exact absurd (congrArg Prod.fst hread) (show kErrorNoData ≠ kOK by decide)
    | some stored =>
      rw [hrecord] at hread
      obtain rfl : stored = values := congrArg Prod.snd hread
      rfl
  · intro table key result fields
    rw [hnone, read_eq]
    cases record s.tables table key with
    | none => exact ⟨fun _ => rfl, fun _ => rfl⟩
    | some values =>
      exact iff_of_false (show kOK ≠ kErrorNoData by decide) (Option.some_ne_none values)
  · intro env table key values
    rw [hnone]
    exact update_noData_iff engine env s table key values
  · intro env table key
    rw [hnone]
    exact delete_noData_iff engine env s table key
  · intro env op table key result fields hne
    exact read_apply_ne engine env s op hne fields result

theorem recordsOf_run {ω σ : Type} (engine : RecoveryEngine ω σ) (e : σ)
    (calls : List (ω × Call)) (hdistinct : ∀ op ∈ operations calls, op.Distinct) :
    recordsOf (run (NVMDB.callStep engine) ⟨∅, e⟩ calls).tables =
        after ((operations calls).map Op.command) ∧
      DistinctNames (run (NVMDB.callStep engine) ⟨∅, e⟩ calls).tables := by
  induction calls using List.reverseRecOn with
  | nil =>
    constructor
    · funext place
      exact congrArg (Option.map asMap) (record_empty place.1 place.2)
    · intro table key values hrecord
      rw [run_nil, record_empty] at hrecord
      cases hrecord
  | append_singleton calls i ih =>
    obtain ⟨env, call⟩ := i
    rw [operations, List.filterMap_append] at hdistinct ⊢
    obtain ⟨hrecords, hnames⟩ := ih fun op hop => hdistinct op (List.mem_append_left _ hop)
    rw [run_append, run_cons, run_nil]
    cases call with
    | read table key fields =>
      rw [show List.filterMap _ [(env, Call.read table key fields)] = [] from rfl, List.append_nil]
      exact ⟨hrecords, hnames⟩
    | change op =>
      have hop : op.Distinct := hdistinct op (List.mem_append_right _ List.mem_cons_self)
      rw [show List.filterMap _ [(env, Call.change op)] = [op] from rfl, List.map_append,
        List.map_singleton, after_snoc]
      show recordsOf (NVMDB.apply engine env _ op).2.tables = _ ∧
        DistinctNames (NVMDB.apply engine env _ op).2.tables
      rw [tables_apply]
      refine ⟨?_, distinctNames_tablesAfter hnames hop⟩
      rw [recordsOf_tablesAfter _ hop, hrecords]
      rfl

/-- **The store refines a map of records**, after any calls of any clients in any
    order, whichever the engine and however it answers. -/
theorem refinesRecords_run {ω σ : Type} (engine : RecoveryEngine ω σ) (e : σ)
    (calls : List (ω × Call)) (hdistinct : ∀ op ∈ operations calls, op.Distinct) :
    RefinesRecords engine (run (NVMDB.callStep engine) ⟨∅, e⟩ calls) (operations calls) := by
  obtain ⟨hrecords, hnames⟩ := recordsOf_run engine e calls hdistinct
  exact refinesRecords engine hnames hrecords

/-- A record inserted, updated in a field it has and one it has not, and read. -/
def insertUpdateRead : List (BlkEnv × Call) :=
  [({}, .change (.insert (str "t") (str "1") [(str "a", str "x"), (str "b", str "y")])),
    ({}, .change (.update (str "t") (str "1") [(str "a", str "z"), (str "c", str "w")])),
    ({}, .read (str "t") (str "1") none)]

theorem refinesRecords_run_insertUpdateRead :
    RefinesRecords NvmBlk.engine
      (run (NVMDB.callStep NvmBlk.engine) ⟨∅, NVMBlkEngine.create 1⟩ insertUpdateRead)
      (operations insertUpdateRead) :=
  refinesRecords_run NvmBlk.engine (NVMBlkEngine.create 1) insertUpdateRead (by decide)

end NvrecYcsb.NvmDb
