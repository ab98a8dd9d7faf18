/-
  NvrecYcsb/RecordRecovery.lean
  =============================
  **Rebuilding the records of the store from what its engine persisted.**

  A persisted tuple is a change of the record of its key: a deleted tuple erases
  it, any other tuple sets its non-empty fields and creates the record when there
  is none.  In memory the same operation replaces, merges into, or erases a list
  of pairs.  The operations here are on one table, by 64-bit keys in decimal,
  with distinct field names and NUL-free values shorter than their arrays.

  * `changeOf_update`: the tuple of a call says exactly what the call carries;
  * `records_after`: what an operation does in memory, as a map of records;
  * `apply_missing`, `apply_found`: an operation reports a missing record, or
    changes the tables and hands the engine one tuple;
  * `log_rebuilds`: a log engine whose Inserts all carry the same fields can be
    replayed into exactly the records of the table.
-/
import NvrecYcsb.NvmDb
import NvrecYcsb.NvmLog
import NvrecYcsb.RecordReplay

namespace NvrecYcsb.RecordRecovery

open CppRuntime RecoveryDefs RecoveryInterface TupleCodec NvmDb KeyedLog RecordReplay Framing Runs
open NvmLog (LogEnv NVMLogEngine)

/-- A record as a map from field names to values. -/
abbrev Fields := Str → Option Str

/-! ### What a persisted tuple says -/

/-- The non-empty fields of a tuple. -/
def fieldsOf (tuple : Tuple) : Fields :=
  match rawToDB tuple with
  | .returned values => fun name => values.lookup name
  | _ => blank

/-- A tuple as a change of the record of its key. -/
def changeOf (tuple : Tuple) : Change Str Str :=
  if tuple.deleted then .erase else .write (fieldsOf tuple)

/-- The record that the persisted tuples of one key stand for. -/
def rebuild (tuples : List Tuple) : Option Fields := replay none (tuples.map changeOf)

/-- Values a call may carry here: distinct field names, and NUL-free values that
    leave the last byte of their array alone. -/
structure Carries (values : List KVPair) : Prop where
  nodup : (values.map Prod.fst).Nodup
  fields : ∀ p ∈ values, FieldPair (kFieldSize - 1) p

theorem lookup_eq_some_iff {values : List KVPair} (hd : (values.map Prod.fst).Nodup)
    {name v : Str} : values.lookup name = some v ↔ (name, v) ∈ values := by
  induction values with
  | nil => simp
  | cons p values ih =>
    obtain ⟨hp, hd⟩ := List.nodup_cons.mp (List.map_cons ▸ hd)
    rw [lookup_cons_pair, List.mem_cons]
    by_cases hname : name = p.1
    · subst hname
      have hnot : (p.1, v) ∉ values := fun hmem => hp (List.mem_map.mpr ⟨_, hmem, rfl⟩)
      rw [if_pos rfl, or_iff_left hnot, Option.some_inj, Prod.ext_iff]
      exact ⟨fun h => ⟨rfl, h.symm⟩, fun h => h.2.symm⟩
    · rw [if_neg hname, ih hd, or_iff_right fun heq => hname (congrArg Prod.fst heq)]

theorem lookup_perm {a b : List KVPair} (h : a.Perm b) (hd : (b.map Prod.fst).Nodup) (name : Str) :
    a.lookup name = b.lookup name := by
  have ha : (a.map Prod.fst).Nodup := (h.map Prod.fst).nodup_iff.mpr hd
  refine Option.ext fun v => ?_
  rw [lookup_eq_some_iff ha, lookup_eq_some_iff hd, h.mem_iff]

theorem lastValue_of_carries {values : List KVPair} (h : Carries values) (name : Str) :
    lastValue name values = values.lookup name := by
  cases hlookup : values.lookup name with
  | some v =>
    rw [lastValue, valuesOf_of_mem h.nodup ((lookup_eq_some_iff h.nodup).mp hlookup)]
    rfl
  | none =>
    rw [lastValue, valuesOf_of_notMem]
    · rfl
    · rintro hmem
      obtain ⟨p, hp, rfl⟩ := List.mem_map.mp hmem
      rw [(lookup_eq_some_iff h.nodup).mpr hp] at hlookup
      cases hlookup

theorem separated_of_carries {values : List KVPair} (h : Carries values) : Separated values := by
  intro i v hmem hfull
  have hbound := (h.fields _ hmem).bounded
  rw [hfull] at hbound
  exact absurd hbound (by decide)

/-- **The tuple of an Update or Insert says what the call carries.** -/
theorem changeOf_update {values : List KVPair} (h : Carries values) (key : UInt64) :
    ∃ tuple, (PersistCall.update key values).tuple = .returned tuple ∧ tuple.key = key ∧
      changeOf tuple = .write fun name => values.lookup name := by
  have hfull : ∀ p ∈ values, FieldPair kFieldSize p := fun p hp =>
    (h.fields p hp).mono (by decide)
  obtain ⟨raw, hraw, hdeleted, -, hholds⟩ := dbToRaw_holds h.nodup hfull
  refine ⟨{ raw with key := key }, ?_, rfl, ?_⟩
  · rw [PersistCall.tuple, hraw]
    rfl
  · have hholds' : Holds { raw with key := key } values := ⟨hholds.carried, hholds.absent⟩
    have hdecoded := rawToDB_of_separated h.nodup hfull hholds' (separated_of_carries h)
    have hperm := inFieldOrder_perm h.nodup fun p hp => (hfull p hp).name
    rw [changeOf, if_neg (by simp [hdeleted]), fieldsOf, hdecoded]
    simp only
    congr
    funext name
    exact lookup_perm hperm h.nodup name

theorem changeOf_delete (key : UInt64) :
    changeOf { deleted := true, key := key } = .erase := rfl

/-! ### Operations on the records of a table -/

def keyName (key : UInt64) : Str := stdToString key.toNat

theorem keyName_injective : Function.Injective keyName := fun _ _ h =>
  UInt64.toNat_inj.mp (stdToString_injective h)

theorem stoul_keyName (key : UInt64) : stoul (keyName key) = .returned key := by
  rw [keyName, stoul_stdToString key.toNat_lt, UInt64.ofNat_toNat]

/-- A mutation of a record of one table. -/
inductive RecordOp where
  | insert (key : UInt64) (values : List KVPair)
  | update (key : UInt64) (values : List KVPair)
  | delete (key : UInt64)

namespace RecordOp

def key : RecordOp → UInt64
  | insert key _ => key
  | update key _ => key
  | delete key => key

def op (table : Str) : RecordOp → Op
  | insert key values => .insert table (keyName key) values
  | update key values => .update table (keyName key) values
  | delete key => .delete table (keyName key)

def call : RecordOp → PersistCall
  | insert key values => .update key values
  | update key values => .update key values
  | delete key => .delete key

def WellFormed : RecordOp → Prop
  | insert _ values => Carries values
  | update _ values => Carries values
  | delete _ => True

/-- What the operation does to the record in memory. -/
def inMemory : RecordOp → Option Fields → Option Fields
  | insert _ values, _ => some fun name => values.lookup name
  | update _ values, r => r.map (overlay fun name => values.lookup name)
  | delete _, _ => none

/-- What the persisted tuple of the operation says. -/
def inLog : RecordOp → Change Str Str
  | insert _ values => .write fun name => values.lookup name
  | update _ values => .write fun name => values.lookup name
  | delete _ => .erase

end RecordOp

/-- The records of a table, by 64-bit key, as maps from field names to values. -/
def records (tables : Tables) (table : Str) (key : UInt64) : Option Fields :=
  (record tables table (keyName key)).map fun values name => values.lookup name

@[simp] theorem records_empty (table : Str) (key : UInt64) : records ∅ table key = none := by
  rw [records, record_empty, Option.map_none]

theorem lookup_merged {values : List KVPair} (h : Carries values) (storedValues : List KVPair) :
    (fun name => (values.foldl mergeValue storedValues).lookup name) =
      overlay (fun name => values.lookup name) fun name => storedValues.lookup name := by
  funext name
  rw [lookup_foldl_mergeValue, lastValue_of_carries h]
  rfl

@[simp] theorem table_op (table : Str) (o : RecordOp) : (o.op table).table = table := by
  cases o <;> rfl

@[simp] theorem key_op (table : Str) (o : RecordOp) : (o.op table).key = keyName o.key := by
  cases o <;> rfl

theorem map_recordAfter (table : Str) {o : RecordOp} (ho : o.WellFormed)
    (stored : Option (List KVPair)) :
    (((o.op table).recordAfter stored).map fun values name => values.lookup name) =
      o.inMemory (stored.map fun values name => values.lookup name) := by
  cases o with
  | insert key values => rfl
  | update key values =>
    cases stored with
    | none => rfl
    | some storedValues => exact congrArg some (lookup_merged ho storedValues)
  | delete key => rfl

/-- **An operation in memory.**  It changes the record of its key as a map of
    fields, and no other record of the table. -/
theorem records_after (tables : Tables) (table : Str) {o : RecordOp} (ho : o.WellFormed)
    (key : UInt64) :
    records ((o.op table).tablesAfter tables) table key =
      if key = o.key then o.inMemory (records tables table key) else records tables table key := by
  have hat : ((o.op table).table = table ∧ (o.op table).key = keyName key) ↔ key = o.key := by
    rw [table_op, key_op, keyName_injective.eq_iff]
    exact ⟨fun h => h.2.symm, fun h => ⟨rfl, h.symm⟩⟩
  rw [records, record_tablesAfter]
  by_cases hk : key = o.key
  · rw [if_pos (hat.mpr hk), if_pos hk]
    exact map_recordAfter table ho _
  · rw [if_neg (mt hat.mp hk), if_neg hk]
    rfl

theorem exists_tuple {o : RecordOp} (ho : o.WellFormed) :
    ∃ tuple, o.call.tuple = .returned tuple ∧ tuple.key = o.key ∧ changeOf tuple = o.inLog := by
  cases o with
  | insert key values => exact changeOf_update ho key
  | update key values => exact changeOf_update ho key
  | delete key => exact ⟨_, PersistCall.tuple_delete key, rfl, changeOf_delete key⟩

/-! ### Operations of the store -/

section Store

variable {ω σ : Type} (engine : RecoveryEngine ω σ) (env : ω) (s : NVMDB σ) (table : Str)

/-- The operation finds the record it needs; an Insert needs none. -/
def RecordOp.Finds (tables : Tables) (table : Str) : RecordOp → Prop
  | .insert _ _ => True
  | .update key _ => records tables table key ≠ none
  | .delete key => records tables table key ≠ none

def answer (tables : Tables) (r : Outcome RecoveryStatus × σ) : Outcome Int × NVMDB σ :=
  andThen (r.1, ⟨tables, r.2⟩) fun status s =>
    (.returned (if status = .kSuccess then kOK else kErrorConflict), s)

@[simp] theorem answer_snd (tables : Tables) (r : Outcome RecoveryStatus × σ) :
    (answer tables r).2 = ⟨tables, r.2⟩ := by
  obtain ⟨out, e⟩ := r
  cases out <;> rfl

theorem answer_kOK {tables : Tables} {r : Outcome RecoveryStatus × σ}
    (h : (answer tables r).1 = .returned kOK) : r.1 = .returned .kSuccess := by
  obtain ⟨out, e⟩ := r
  cases out with
  | returned status =>
    cases status with
    | kSuccess => rfl
    | kFail => cases h
  | threw e => cases h
  | aborted => cases h
  | undefined => cases h
  | running => cases h

theorem persist_keyName (key : UInt64) (call : UInt64 → PersistCall) :
    s.persist engine env (keyName key) call =
      answer s.tables (engine.call env s.recEngine (call key)) := by
  rw [NVMDB.persist, stoul_keyName]
  rfl

theorem records_eq_none_iff {tables : Tables} {key : UInt64} :
    records tables table key = none ↔ record tables table (keyName key) = none := by
  rw [records, Option.map_eq_none_iff]

theorem apply_missing {o : RecordOp} (h : ¬o.Finds s.tables table) :
    s.apply engine env (o.op table) = (.returned kErrorNoData, s) := by
  cases o with
  | insert key values => exact absurd trivial h
  | update key values =>
    have hnone := records_eq_none_iff table |>.mp (not_not.mp h)
    rw [RecordOp.op, NVMDB.apply, NVMDB.update, findByTableKey_eq, hnone]
    rfl
  | delete key =>
    have hnone := records_eq_none_iff table |>.mp (not_not.mp h)
    rw [RecordOp.op, NVMDB.apply, NVMDB.delete, findByTableKey_eq, hnone]
    rfl

theorem apply_found {o : RecordOp} (h : o.Finds s.tables table) :
    s.apply engine env (o.op table) =
      answer ((o.op table).tablesAfter s.tables) (engine.call env s.recEngine o.call) := by
  cases o with
  | insert key values =>
    rw [RecordOp.op, NVMDB.apply, NVMDB.insert, persist_keyName]
    rfl
  | update key values =>
    obtain ⟨storedValues, hrecord⟩ :=
      Option.ne_none_iff_exists'.mp (mt (records_eq_none_iff table).mpr h)
    rw [RecordOp.op, NVMDB.apply, NVMDB.update, findByTableKey_eq, Op.tablesAfter, hrecord]
    exact persist_keyName ..
  | delete key =>
    obtain ⟨storedValues, hrecord⟩ :=
      Option.ne_none_iff_exists'.mp (mt (records_eq_none_iff table).mpr h)
    rw [RecordOp.op, NVMDB.apply, NVMDB.delete, findByTableKey_eq, Op.tablesAfter, hrecord]
    exact persist_keyName ..

def tableStep (s : NVMDB σ) (i : ω × RecordOp) : NVMDB σ :=
  (s.apply engine i.1 (i.2.op table)).2

theorem tableStep_missing {o : RecordOp} (h : ¬o.Finds s.tables table) :
    tableStep engine table s (env, o) = s := by
  rw [tableStep, apply_missing engine env s table h]

theorem tableStep_found {o : RecordOp} (h : o.Finds s.tables table) :
    tableStep engine table s (env, o) =
      ⟨(o.op table).tablesAfter s.tables, (engine.call env s.recEngine o.call).2⟩ := by
  rw [tableStep, apply_found engine env s table h, answer_snd]

end Store

/-! ### The log engine -/

/-- The tables hold nothing but records of the table under decimal keys. -/
def OnlyRecords (table : Str) (tables : Tables) : Prop :=
  ∀ table' name, record tables table' name ≠ none → table' = table ∧ ∃ key, name = keyName key

theorem onlyRecords_after {table : Str} {tables : Tables} (h : OnlyRecords table tables)
    (o : RecordOp) : OnlyRecords table ((o.op table).tablesAfter tables) := by
  intro table' name hrecord
  rw [record_tablesAfter, table_op, key_op] at hrecord
  by_cases hat : table = table' ∧ keyName o.key = name
  · exact ⟨hat.1.symm, o.key, hat.2.symm⟩
  · rw [if_neg hat] at hrecord
    exact h table' name hrecord

/-- The log can be replayed into the records of the table: record by record, the
    disk log first and the NVM log after it. -/
structure Rebuilds (table : Str) (s : NVMDB NVMLogEngine) : Prop where
  records : replayLog Tuple.key changeOf (fun _ => none)
    (tupleCode.readAll s.recEngine.diskLog ++ tupleCode.readAll s.recEngine.logPool) =
      records s.tables table
  only : OnlyRecords table s.tables

/-- An Insert carries exactly the fields `F`, an Update some of them. -/
def CarriesFields (F : List Str) : RecordOp → Prop
  | .insert _ values => Carries values ∧ ∀ name, name ∈ values.map Prod.fst ↔ name ∈ F
  | .update _ values => Carries values ∧ ∀ name ∈ values.map Prod.fst, name ∈ F
  | .delete _ => True

theorem wellFormed_of_carriesFields {F : List Str} {o : RecordOp} (h : CarriesFields F o) :
    o.WellFormed := by
  cases o with
  | insert key values => exact h.1
  | update key values => exact h.1
  | delete key => trivial

theorem lookup_eq_none_iff_notMem {values : List KVPair} (name : Str) :
    values.lookup name = none ↔ name ∉ values.map Prod.fst := by
  rw [List.lookup_eq_none_iff, List.mem_map, not_exists]
  refine forall_congr' fun p => ?_
  rw [not_and]
  exact imp_congr_right fun _ => by rw [bne_iff_ne, ne_comm]

/-- The engine is in step with the store, and no record has a field outside `F`. -/
structure LogInv (table : Str) (F : List Str) (s : NVMDB NVMLogEngine) : Prop where
  synced : NVMLogEngine.Synced s.recEngine
  size : sizeofTuple ≤ s.recEngine.availableBytes
  journal : ∃ ds ns, NVMLogEngine.Journal s.recEngine ds ns ∧
    replayLog Tuple.key changeOf (fun _ => none) (ds ++ ns) = records s.tables table
  only : OnlyRecords table s.tables
  within : ∀ key r, records s.tables table key = some r → ∀ name, name ∉ F → r name = none

theorem within_inMemory {F : List Str} {o : RecordOp} (ho : CarriesFields F o) {r : Option Fields}
    (hr : ∀ q, r = some q → ∀ name, name ∉ F → q name = none) {q : Fields}
    (hq : o.inMemory r = some q) {name : Str} (hname : name ∉ F) : q name = none := by
  cases o with
  | insert key values =>
    obtain rfl := Option.some.inj hq
    exact (lookup_eq_none_iff_notMem name).mpr (mt (ho.2 name).mp hname)
  | update key values =>
    obtain ⟨p, hp, rfl⟩ := Option.map_eq_some_iff.mp hq
    have hvalues : values.lookup name = none :=
      (lookup_eq_none_iff_notMem name).mpr (mt (ho.2 name) hname)
    show (values.lookup name).or (p name) = none
    rw [hvalues, Option.none_or, hr p hp name hname]
  | delete key => cases hq

/-- On a log that keeps every tuple, an operation does the same to the record as
    its tuple does to the replayed one. -/
theorem apply_inLog {F : List Str} {tables : Tables} {table : Str} {o : RecordOp}
    (ho : CarriesFields F o) (hfound : o.Finds tables table)
    (hwithin : ∀ r, records tables table o.key = some r → ∀ name, name ∉ F → r name = none) :
    o.inLog.apply (records tables table o.key) = o.inMemory (records tables table o.key) := by
  cases o with
  | insert key values =>
    -- the fields the record had before are all carried again
    show some (overlay _ _) = some _
    rw [overlay_eq_self_iff.mpr]
    intro name hname
    have hnot : name ∉ F := mt (ho.2 name).mpr ((lookup_eq_none_iff_notMem name).mp hname)
    show (records tables table key).getD blank name = none
    cases hrecord : records tables table key with
    | none => rfl
    | some r => exact hwithin r hrecord name hnot
  | update key values =>
    obtain ⟨r, hrecord⟩ := Option.ne_none_iff_exists'.mp hfound
    show (RecordOp.update key values).inLog.apply (records tables table key) =
      (RecordOp.update key values).inMemory (records tables table key)
    rw [hrecord]
    rfl
  | delete key => rfl

theorem logInv_tableStep {table : Str} {F : List Str} {s : NVMDB NVMLogEngine}
    (h : LogInv table F s) {env : LogEnv} {o : RecordOp} (henv : env.Ok) (ho : CarriesFields F o) :
    LogInv table F (tableStep NvmLog.engine table s (env, o)) := by
  by_cases hfound : o.Finds s.tables table
  · have hwell := wellFormed_of_carriesFields ho
    obtain ⟨tuple, htuple, hkey, hchange⟩ := exists_tuple hwell
    obtain ⟨ds, ns, hj, hreplay⟩ := h.journal
    obtain ⟨e, ds', ns', hstored, hsynced, havail, hj', happend⟩ :=
      NVMLogEngine.updateOnLog_journal h.synced h.size henv hj tuple
    have hcall : NvmLog.engine.call env s.recEngine o.call = (.returned .kSuccess, e) := by
      rw [NvmLog.engine, call_ofStore, persistTuple_of_tuple _ htuple]
      exact hstored
    rw [tableStep_found NvmLog.engine env s table hfound, hcall]
    refine ⟨hsynced, havail ▸ h.size, ⟨ds', ns', hj', ?_⟩, onlyRecords_after h.only o, ?_⟩
    · funext key
      rw [records_after s.tables table hwell, happend, replayLog_snoc, hreplay, hkey, hchange]
      by_cases hk : key = o.key
      · subst hk
        rw [if_pos rfl, Function.update_self, apply_inLog ho hfound (h.within o.key)]
      · rw [if_neg hk, Function.update_of_ne hk]
    · intro key r hr name hname
      rw [records_after s.tables table hwell] at hr
      by_cases hk : key = o.key
      · rw [if_pos hk] at hr
        exact within_inMemory ho (h.within key) hr hname
      · rw [if_neg hk] at hr
        exact h.within key r hr name hname
  · rw [tableStep_missing NvmLog.engine env s table hfound]
    exact h

theorem logInv_create {available : Nat} (havailable : sizeofTuple ≤ available) (table : Str)
    (F : List Str) : LogInv table F ⟨∅, NVMLogEngine.create available⟩ where
  synced := NVMLogEngine.synced_create _
  size := havailable
  journal := ⟨[], [], NVMLogEngine.journal_create _, by funext key; rw [records_empty]; rfl⟩
  only table' name h := absurd (record_empty table' name) h
  within key r h := by
    rw [records_empty] at h
    cases h

theorem rebuilds_of_logInv {table : Str} {F : List Str} {s : NVMDB NVMLogEngine}
    (h : LogInv table F s) : Rebuilds table s where
  records := by
    obtain ⟨ds, ns, hj, hreplay⟩ := h.journal
    rw [hj.disk, hj.log, FixedCode.readAll_writeAll, FixedCode.readAll_writeAll]
    exact hreplay
  only := h.only

/-- **The log rebuilds the records.**  For every run of Inserts, Updates and
    Deletes on one table over a new log engine with room for one record, with
    working devices, every Insert carrying exactly the fields `F` and every Update
    distinct fields of `F`: in every state, replaying the disk log and then the
    NVM log record by record gives exactly the records of the table. -/
theorem log_rebuilds {available : Nat} (havailable : sizeofTuple ≤ available) (table : Str)
    (F : List Str) (script : List (LogEnv × RecordOp)) (hok : ∀ i ∈ script, i.1.Ok)
    (hfields : ∀ i ∈ script, CarriesFields F i.2) :
    Throughout (tableStep NvmLog.engine table) (Rebuilds table)
      ⟨∅, NVMLogEngine.create available⟩ script := by
  have hsteps : AllSteps (tableStep NvmLog.engine table) (fun _ i => i.1.Ok ∧ CarriesFields F i.2)
      ⟨∅, NVMLogEngine.create available⟩ script :=
    allSteps_const.mpr fun i hi => ⟨hok i hi, hfields i hi⟩
  have hrun := throughout_of_allSteps (J := LogInv table F)
    (fun s i h hi => logInv_tableStep h hi.1 hi.2) (logInv_create havailable table F) hsteps
  exact hrun.imp fun s h => rebuilds_of_logInv h

/-- A record inserted, updated in one of its two fields, and deleted, on a log with
    room for one tuple. -/
def oneRecord : List (LogEnv × RecordOp) :=
  [({}, .insert 1 [(fieldName 0, [97]), (fieldName 1, [98])]),
   ({}, .update 1 [(fieldName 1, [99])]),
   ({}, .delete 1)]

theorem carries_of_decide {values : List KVPair} (hd : (values.map Prod.fst).Nodup)
    (h : ∀ p ∈ values, (∃ i : Fin kNumOfFields, p.1 = fieldName i) ∧ NulFree p.2 ∧
      0 < p.2.length ∧ p.2.length ≤ kFieldSize - 1) : Carries values :=
  ⟨hd, fun p hp => ⟨(h p hp).1, (h p hp).2.1, (h p hp).2.2.1, (h p hp).2.2.2⟩⟩

theorem log_rebuilds_oneRecord :
    Throughout (tableStep NvmLog.engine (lit ['t'])) (Rebuilds (lit ['t']))
      ⟨∅, NVMLogEngine.create sizeofTuple⟩ oneRecord := by
  refine log_rebuilds (Nat.le_refl _) (lit ['t']) [fieldName 0, fieldName 1] oneRecord ?_ ?_
  · simp [oneRecord, LogEnv.ok_default]
  · simp only [oneRecord, List.forall_mem_cons]
    refine ⟨⟨carries_of_decide (by decide) (by decide), ?_⟩,
      ⟨carries_of_decide (by decide) (by decide), ?_⟩, trivial, nofun⟩
    · simp
    · simp

end NvrecYcsb.RecordRecovery
