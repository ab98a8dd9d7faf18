/-
  NvrecYcsb/ClientRequests.lean
  =============================
  **What a client asks of the store** (`core/client.h`, `NextFieldName`,
  `BuildValues` and `BuildUpdate` of `core/core_workload.{h,cc}`).

  A transaction is one or two calls on the store.  The names of the fields come
  from three places: `BuildValues` numbers them, `BuildUpdate` takes the name that
  `NextFieldName` makes of a draw, and a request of one field puts "field" in front
  of that name.

  The draws of the generators, and the keys, are inputs.  Values fit a string.

  * `nextFieldName_mem`: a name drawn for an update is one that is loaded;
  * `requestedField_not_fieldName`: a name requested never is;
  * `onlyFieldNames_run`, `onlyNamesIn_run`: whatever the clients do, the records of
    either back end have no other fields;
  * `requests_miss`: so a request of one field finds none of them.
-/
import NvrecYcsb.TransactionKeys
import NvrecYcsb.NvmDbRefinement
import NvrecYcsb.HashtableDb

namespace NvrecYcsb.ClientRequests

open CppRuntime RecoveryDefs RecoveryInterface Runs StlHashtable Workload AtomicCalls
open NvmDb (NVMDB Op Tables record filterByFields mergeValue kOK)
open HashtableDb (FieldHashtable indexOf insertAll addAll putField)
open TransactionKeys (digitArith threeRecords threeRecordsWorkload)

variable {D : DoubleArith}

/-! ### What the workload builds -/

/-- `RandomPrintChar`, of what `rand()` returned. -/
def randomPrintChar (rand : Nat) : Byte := .ofNat (rand % 94 + 33)

/-- `NextFieldName`, of what `field_chooser_` drew. -/
def nextFieldName (draw : UInt64) : Str := str "field" ++ stdToString draw.toNat

/-- What the generators give to one transaction, and its key. -/
structure Draws where
  key : Str
  requested : UInt64     -- field_chooser_, for a request of one field
  updated : UInt64       -- field_chooser_, for BuildUpdate
  scanLength : UInt64
  length : Nat → UInt64  -- field_len_generator_, for each value
  rand : Nat → Nat

def buildValue (d : Draws) (i : Nat) : Str :=
  List.replicate (d.length i).toNat (randomPrintChar (d.rand i))

/-- `BuildValues`. -/
def buildValues (wl : CoreWorkload D) (d : Draws) : List KVPair :=
  (List.range wl.fieldCount.toNat).map fun i => (str "field" ++ stdToString i, buildValue d i)

/-- `BuildUpdate`. -/
def buildUpdate (d : Draws) : List KVPair := [(nextFieldName d.updated, buildValue d 0)]

/-! ### The transactions -/

/-- A call on the store; `none` for the fields is the null pointer. -/
inductive DbCall where
  | read (table key : Str) (fields : Option (List Str))
  | scan (table key : Str) (len : Int) (fields : Option (List Str))
  | update (table key : Str) (values : List KVPair)
  | insert (table key : Str) (values : List KVPair)

/-- The name that a request of one field puts in its list. -/
def requestedField (draw : UInt64) : Str := str "field" ++ nextFieldName draw

/-- The `fields` of a request: one field, or all of them. -/
def requestFields (wl : CoreWorkload D) (d : Draws) : Option (List Str) :=
  if ¬wl.readAllFields then some [requestedField d.requested] else none

/-- The `values` of an update. -/
def updateValues (wl : CoreWorkload D) (d : Draws) : List KVPair :=
  if wl.writeAllFields then buildValues wl d else buildUpdate d

def transactionRead (wl : CoreWorkload D) (d : Draws) : List DbCall :=
  [.read wl.tableName d.key (requestFields wl d)]

/-- What the read returns is not looked at. -/
def transactionReadModifyWrite (wl : CoreWorkload D) (d : Draws) : List DbCall :=
  [.read wl.tableName d.key (requestFields wl d), .update wl.tableName d.key (updateValues wl d)]

def transactionScan (wl : CoreWorkload D) (d : Draws) : List DbCall :=
  [.scan wl.tableName d.key d.scanLength.toUInt32.toInt32.toInt (requestFields wl d)]

def transactionUpdate (wl : CoreWorkload D) (d : Draws) : List DbCall :=
  [.update wl.tableName d.key (updateValues wl d)]

/-- `TransactionInsert`, and `DoInsert` of the load. -/
def transactionInsert (wl : CoreWorkload D) (d : Draws) : List DbCall :=
  [.insert wl.tableName d.key (buildValues wl d)]

/-- `DoTransaction`, with the operation chosen. -/
def doTransaction (wl : CoreWorkload D) : Operation → Draws → List DbCall
  | .read, d => transactionRead wl d
  | .update, d => transactionUpdate wl d
  | .insert, d => transactionInsert wl d
  | .scan, d => transactionScan wl d
  | .readModifyWrite, d => transactionReadModifyWrite wl d

/-- The field list of a request. -/
def DbCall.fields : DbCall → Option (List Str)
  | .read _ _ fields => fields
  | .scan _ _ _ fields => fields
  | .update _ _ _ => none
  | .insert _ _ _ => none

/-- The operation of a call that changes the store. -/
def DbCall.op : DbCall → Option Op
  | .read _ _ _ => none
  | .scan _ _ _ _ => none
  | .update table key values => some (.update table key values)
  | .insert table key values => some (.insert table key values)

/-- What transactions, one after another, change in the store. -/
def clientOps (wl : CoreWorkload D) (ts : List (Operation × Draws)) : List Op :=
  ts.flatMap fun t => (doTransaction wl t.1 t.2).filterMap DbCall.op

/-! ### The names of fields -/

/-- "field" and a number. -/
def IsFieldName (name : Str) : Prop := ∃ n : Nat, name = str "field" ++ stdToString n

theorem IsFieldName.nulFree {name : Str} (h : IsFieldName name) : NulFree name := by
  obtain ⟨n, rfl⟩ := h
  apply nulFree_append
  · decide +kernel
  · intro hmem
    exact absurd (isDigit_of_mem_stdToString hmem) (by decide)

theorem isFieldName_nextFieldName (draw : UInt64) : IsFieldName (nextFieldName draw) :=
  ⟨draw.toNat, rfl⟩

theorem isFieldName_of_mem_buildValues {wl : CoreWorkload D} {d : Draws} {p : KVPair}
    (h : p ∈ buildValues wl d) : IsFieldName p.1 := by
  obtain ⟨i, -, rfl⟩ := List.mem_map.mp h
  exact ⟨i, rfl⟩

/-- **The name of an update is loaded**, for every draw of the field chooser. -/
theorem nextFieldName_mem (wl : CoreWorkload D) (d : Draws) {draw : UInt64}
    (h : draw.toNat < wl.fieldCount.toNat) :
    nextFieldName draw ∈ (buildValues wl d).map Prod.fst := by
  have hpair : (nextFieldName draw, buildValue d draw.toNat) ∈ buildValues wl d :=
    List.mem_map.mpr ⟨draw.toNat, List.mem_range.mpr h, rfl⟩
  exact List.mem_map_of_mem hpair

/-- **The name of a request is not a field name**: after "field" a letter follows. -/
theorem requestedField_not_fieldName (draw : UInt64) : ¬IsFieldName (requestedField draw) := by
  rintro ⟨n, hn⟩
  have hdigits : nextFieldName draw = stdToString n := List.append_cancel_left hn
  have hletter : (102 : Byte) ∈ stdToString n := by
    rw [← hdigits]
    exact List.mem_append_left _ (by decide +kernel)
  exact absurd (isDigit_of_mem_stdToString hletter) (by decide)

/-- The values that an operation carries. -/
def carried : Op → List KVPair
  | .insert _ _ values => values
  | .update _ _ values => values
  | .delete _ _ => []

theorem isFieldName_of_clientOps {wl : CoreWorkload D} {ts : List (Operation × Draws)} {op : Op}
    (hop : op ∈ clientOps wl ts) : ∀ p ∈ carried op, IsFieldName p.1 := by
  have hbuild : ∀ d : Draws, ∀ p ∈ buildValues wl d, IsFieldName p.1 :=
    fun d p hp => isFieldName_of_mem_buildValues hp
  have hupdate : ∀ d : Draws, ∀ p ∈ updateValues wl d, IsFieldName p.1 := by
    intro d p hp
    rw [updateValues] at hp
    split_ifs at hp
    · exact hbuild d p hp
    · obtain rfl := List.mem_singleton.mp hp
      exact isFieldName_nextFieldName d.updated
  obtain ⟨⟨chosen, d⟩, -, hop⟩ := List.mem_flatMap.mp hop
  cases chosen <;> simp [doTransaction, transactionRead, transactionUpdate, transactionInsert,
    transactionScan, transactionReadModifyWrite, DbCall.op] at hop
  · subst hop
    exact hbuild d
  · subst hop
    exact hupdate d
  · subst hop
    exact hupdate d

/-! ### The records of NVMDB -/

/-- The records have no other fields. -/
def OnlyFieldNames (tables : Tables) : Prop :=
  ∀ (table key : Str) (values : List KVPair), record tables table key = some values →
    ∀ p ∈ values, IsFieldName p.1

theorem isFieldName_foldl_mergeValue {storedValues values : List KVPair}
    (hstored : ∀ p ∈ storedValues, IsFieldName p.1) (hvalues : ∀ p ∈ values, IsFieldName p.1) :
    ∀ p ∈ values.foldl mergeValue storedValues, IsFieldName p.1 := by
  induction values generalizing storedValues with
  | nil => exact hstored
  | cons value values ih =>
    apply ih
    · intro p hp
      have hname : p.1 ∈ (mergeValue storedValues value).map Prod.fst := List.mem_map_of_mem hp
      rw [NvmDb.names_mergeValue] at hname
      have hold : ∀ name ∈ storedValues.map Prod.fst, IsFieldName name := by
        intro name hname
        obtain ⟨q, hq, rfl⟩ := List.mem_map.mp hname
        exact hstored q hq
      split_ifs at hname
      · exact hold p.1 hname
      · rcases List.mem_append.mp hname with hname | hname
        · exact hold p.1 hname
        · rw [List.mem_singleton.mp hname]
          exact hvalues value List.mem_cons_self
    · exact fun q hq => hvalues q (List.mem_cons_of_mem value hq)

theorem onlyFieldNames_tablesAfter {tables : Tables} (h : OnlyFieldNames tables) {op : Op}
    (hop : ∀ p ∈ carried op, IsFieldName p.1) : OnlyFieldNames (op.tablesAfter tables) := by
  apply NvmDb.forall_record_tablesAfter h
  · rintro _ _ values rfl
    exact hop
  · rintro _ _ values storedValues rfl hstored
    exact isFieldName_foldl_mergeValue hstored hop

/-- **Whatever the clients do, the records of NVMDB have no other fields.** -/
theorem onlyFieldNames_run {ω σ : Type} (engine : RecoveryEngine ω σ) (recEngine : σ)
    {wl : CoreWorkload D} {ts : List (Operation × Draws)} {inputs : List (ω × Op)}
    (h : inputs.map Prod.snd = clientOps wl ts) :
    OnlyFieldNames (run (NVMDB.step engine) ⟨∅, recEngine⟩ inputs).tables := by
  have hempty : OnlyFieldNames ∅ := by
    intro table key values hrecord
    rw [NvmDb.record_empty] at hrecord
    cases hrecord
  have hinputs : ∀ i ∈ inputs, ∀ p ∈ carried i.2, IsFieldName p.1 := by
    intro i hi
    have hop : i.2 ∈ clientOps wl ts := by
      rw [← h]
      exact List.mem_map_of_mem hi
    exact isFieldName_of_clientOps hop
  have hthroughout : Throughout (NVMDB.step engine) (fun s => OnlyFieldNames s.tables)
      ⟨∅, recEngine⟩ inputs := by
    apply throughout_of_allSteps (P := fun _ i => ∀ p ∈ carried i.2, IsFieldName p.1)
    · intro s i hs hi
      rw [NVMDB.step, NvmDb.tables_apply]
      exact onlyFieldNames_tablesAfter hs hi
    · exact hempty
    · exact allSteps_const.mpr hinputs
  exact hthroughout.last

theorem filterByFields_eq_nil {values : List KVPair} {name : Str}
    (h : ∀ p ∈ values, p.1 ≠ name) : filterByFields values [name] = [] := by
  rw [NvmDb.filterByFields_eq]
  apply List.filter_eq_nil_iff.mpr
  intro p hp
  simpa using h p hp

/-! ### The records of the hash table back end -/

/-- A field table has no other fields. -/
def OnlyNames (t : FieldHashtable) : Prop := ∀ name value, t[name]? = some value → IsFieldName name

theorem onlyNames_insert {t : FieldHashtable} (h : OnlyNames t) {name : Str}
    (hname : IsFieldName name) (value : Str) : OnlyNames (insert t name value).2 := by
  intro other v hv
  rw [getElem?_insert, cStr_of_nulFree hname.nulFree] at hv
  split_ifs at hv with hat
  · rwa [← hat.1]
  · exact h other v hv

theorem onlyNames_update {t : FieldHashtable} (h : OnlyNames t) {name : Str}
    (hname : IsFieldName name) (value : Str) : OnlyNames (update t name value).2 := by
  intro other v hv
  rw [getElem?_update, cStr_of_nulFree hname.nulFree] at hv
  split_ifs at hv with hat
  · rwa [← hat]
  · exact h other v hv

theorem onlyNames_insertAll {values : List KVPair} (hvalues : ∀ p ∈ values, IsFieldName p.1)
    {t : FieldHashtable} (h : OnlyNames t) : OnlyNames (insertAll values t).2 := by
  induction values generalizing t with
  | nil => exact h
  | cons p values ih =>
    have hp := onlyNames_insert h (hvalues p List.mem_cons_self) (HashtableDb.copyString p.2)
    rw [insertAll]
    split_ifs
    · exact ih (fun q hq => hvalues q (List.mem_cons_of_mem p hq)) hp
    · exact hp

theorem onlyNames_addAll {values : List KVPair} (hvalues : ∀ p ∈ values, IsFieldName p.1)
    {t : FieldHashtable} (h : OnlyNames t) : OnlyNames (addAll values t) := by
  induction values generalizing t with
  | nil => exact h
  | cons p values ih =>
    apply ih
    · exact fun q hq => hvalues q (List.mem_cons_of_mem p hq)
    · exact onlyNames_insert h (hvalues p List.mem_cons_self) (HashtableDb.copyString p.2)

theorem onlyNames_foldl_putField {values : List KVPair} (hvalues : ∀ p ∈ values, IsFieldName p.1)
    {t : FieldHashtable} (h : OnlyNames t) : OnlyNames (values.foldl putField t) := by
  induction values generalizing t with
  | nil => exact h
  | cons p values ih =>
    have hp := onlyNames_update h (hvalues p List.mem_cons_self) (HashtableDb.copyString p.2)
    apply ih
    · exact fun q hq => hvalues q (List.mem_cons_of_mem p hq)
    · rw [putField]
      split
      · exact onlyNames_insert hp (hvalues p List.mem_cons_self) (HashtableDb.copyString p.2)
      · exact hp

theorem onlyNames_outcome {op : Op} (hop : ∀ p ∈ carried op, IsFieldName p.1)
    {record : Option FieldHashtable} (h : ∀ t, record = some t → OnlyNames t) :
    ∀ t, (HashtableDb.outcome op record).2 = some t → OnlyNames t := by
  have hempty : OnlyNames ∅ := by
    intro name value hvalue
    rw [Std.ExtTreeMap.getElem?_empty] at hvalue
    cases hvalue
  intro t ht
  cases op with
  | insert _ _ values =>
    cases ht
    apply onlyNames_insertAll hop
    cases record with
    | none => exact hempty
    | some stored => exact h stored rfl
  | update _ _ values =>
    cases record with
    | none =>
      cases ht
      exact onlyNames_addAll hop hempty
    | some stored =>
      cases ht
      exact onlyNames_foldl_putField hop (h stored rfl)
  | delete _ _ => cases record <;> cases ht

/-- A memory whose field tables have no other fields. -/
structure OnlyNamesIn (m : HashtableDb.Mem) : Prop where
  wellFormed : m.WellFormed
  names : ∀ index t, m.recordAt index = some t → OnlyNames t

theorem onlyNamesIn_empty : OnlyNamesIn .empty := by
  refine ⟨HashtableDb.Mem.wellFormed_empty, ?_⟩
  intro index t ht
  rw [HashtableDb.Mem.recordAt_empty] at ht
  cases ht

theorem onlyNamesIn_step {m : HashtableDb.Mem} (hm : OnlyNamesIn m) {op : Op}
    (hop : ∀ p ∈ carried op, IsFieldName p.1) : OnlyNamesIn (HashtableDb.step m op) := by
  have hbecomes := HashtableDb.step_spec hm.wellFormed op
  refine ⟨hbecomes.wellFormed, ?_⟩
  intro index t ht
  rw [hbecomes.recordAt] at ht
  split_ifs at ht
  · exact onlyNames_outcome hop (hm.names _) t ht
  · exact hm.names index t ht

/-- **Whatever the clients do, the field tables have no other fields.** -/
theorem onlyNamesIn_run (wl : CoreWorkload D) (ts : List (Operation × Draws)) :
    OnlyNamesIn (run HashtableDb.step .empty (clientOps wl ts)) := by
  have hthroughout : Throughout HashtableDb.step OnlyNamesIn .empty (clientOps wl ts) :=
    throughout_of_allSteps (P := fun _ op => ∀ p ∈ carried op, IsFieldName p.1)
      (fun _ _ hm hop => onlyNamesIn_step hm hop) onlyNamesIn_empty
      (allSteps_const.mpr fun _ hop => isFieldName_of_clientOps hop)
  exact hthroughout.last

/-! ### Requests of one field -/

/-- After any transactions, a Read of the field from a record of NVMDB returns `kOK` and
    no pair. -/
def MissesNvmDb {ω σ : Type} (engine : RecoveryEngine ω σ) (recEngine : σ) (wl : CoreWorkload D)
    (name : Str) : Prop :=
  ∀ (ts : List (Operation × Draws)) (inputs : List (ω × Op)),
    inputs.map Prod.snd = clientOps wl ts →
    let s := run (NVMDB.step engine) ⟨∅, recEngine⟩ inputs
    ∀ (table key : Str) (values result : List KVPair),
      record s.tables table key = some values →
      s.read table key (some [name]) result = (kOK, [])

/-- The same of a record of the hash table back end. -/
def MissesHashtableDb (wl : CoreWorkload D) (name : Str) : Prop :=
  ∀ ts : List (Operation × Draws),
    let m := run HashtableDb.step HashtableDb.Mem.empty (clientOps wl ts)
    ∀ (table key : Str) (t : FieldHashtable) (result : List KVPair),
      m.recordAt (indexOf table key) = some t →
      (HashtableDb.read table key (some [name]) result).exec HashtableDb.handle m =
        some ((kOK, []), m)

theorem missesNvmDb {ω σ : Type} (engine : RecoveryEngine ω σ) (recEngine : σ)
    (wl : CoreWorkload D) {name : Str} (hname : ¬IsFieldName name) :
    MissesNvmDb engine recEngine wl name := by
  intro ts inputs hinputs s table key values result hrecord
  have hnames := onlyFieldNames_run engine recEngine hinputs table key values hrecord
  have hnone : filterByFields values [name] = [] := by
    apply filterByFields_eq_nil
    rintro p hp rfl
    exact hname (hnames p hp)
  rw [NVMDB.read, NvmDb.findByTableKey_eq, hrecord, Option.map_some]
  simp [hnone]

theorem missesHashtableDb (wl : CoreWorkload D) {name : Str} (hname : ¬IsFieldName name)
    (hnul : NulFree name) : MissesHashtableDb wl name := by
  intro ts m table key t result hrecord
  have hnames := (onlyNamesIn_run wl ts).names (indexOf table key) t hrecord
  have hget : get t name = none := by
    rw [StlHashtable.get, cStr_of_nulFree hnul]
    cases hvalue : t[name]? with
    | none => rfl
    | some value => exact absurd (hnames name value hvalue) hname
  rw [HashtableDb.exec_read (onlyNamesIn_run wl ts).wellFormed, hrecord]
  simp [HashtableDb.readRecord, hget, m]

/-- **A request of one field misses.**  When not all fields are read, each of the three
    transactions that read asks for a name that no loaded field has, whatever was
    drawn, and a Read of it from a record that is there returns `kOK` and no pair. -/
theorem requests_miss {ω σ : Type} (engine : RecoveryEngine ω σ) (recEngine : σ)
    (wl : CoreWorkload D) (hread : wl.readAllFields = false) (op : Operation)
    (hop : op = .read ∨ op = .readModifyWrite ∨ op = .scan) (d : Draws) :
    (∃ call ∈ doTransaction wl op d, call.fields = some [requestedField d.requested]) ∧
      (∀ loaded : Draws, requestedField d.requested ∉ (buildValues wl loaded).map Prod.fst) ∧
      MissesNvmDb engine recEngine wl (requestedField d.requested) ∧
      MissesHashtableDb wl (requestedField d.requested) := by
  have hname := requestedField_not_fieldName d.requested
  have hfields : requestFields wl d = some [requestedField d.requested] := by
    simp [requestFields, hread]
  refine ⟨?_, ?_, missesNvmDb engine recEngine wl hname, missesHashtableDb wl hname ?_⟩
  · rcases hop with rfl | rfl | rfl
    all_goals exact ⟨_, List.mem_cons_self, hfields⟩
  · intro loaded hmem
    obtain ⟨p, hp, heq⟩ := List.mem_map.mp hmem
    rw [← heq] at hname
    exact hname (isFieldName_of_mem_buildValues hp)
  · apply nulFree_append
    · decide +kernel
    · exact (isFieldName_nextFieldName d.requested).nulFree

/-- `readallfields=false` and else as `threeRecords`. -/
def oneFieldRead : Properties := fun key =>
  if key = readAllFieldsProperty then some (str "false") else threeRecords key

def oneFieldReadWorkload : CoreWorkload digitArith :=
  { threeRecordsWorkload with readAllFields := false }

theorem init_oneFieldRead : init digitArith oneFieldRead = .returned oneFieldReadWorkload := rfl

/-- The draw 3 of ten fields, and values of one letter. -/
def drawThree : Draws where
  key := str "1"
  requested := 3
  updated := 3
  scanLength := 1
  length _ := 1
  rand _ := 32

theorem requests_miss_drawThree :
    (∃ call ∈ doTransaction oneFieldReadWorkload .read drawThree,
        call.fields = some [requestedField 3]) ∧
      (∀ loaded : Draws,
        requestedField 3 ∉ (buildValues oneFieldReadWorkload loaded).map Prod.fst) ∧
      MissesNvmDb NvmBlk.engine (NvmBlk.NVMBlkEngine.create 1) oneFieldReadWorkload
        (requestedField 3) ∧
      MissesHashtableDb oneFieldReadWorkload (requestedField 3) :=
  requests_miss NvmBlk.engine (NvmBlk.NVMBlkEngine.create 1) oneFieldReadWorkload rfl .read
    (.inl rfl) drawThree

/-- A record of ten fields is loaded, and "fieldfield3" is asked for: the Read returns `kOK`
    and nothing. -/
theorem not_existing_drawThree :
    (¬∀ (D : DoubleArith) (p : Properties) (wl : CoreWorkload D) (d : Draws),
        init D p = .returned wl → wl.readAllFields = false → 1 ≤ wl.fieldCount →
        d.requested.toNat < wl.fieldCount.toNat →
        requestedField d.requested ∈ (buildValues wl d).map Prod.fst) ∧
      (NVMDB.step NvmBlk.engine ⟨∅, NvmBlk.NVMBlkEngine.create 1⟩
          ({}, .insert (str "usertable") (str "1")
            (buildValues oneFieldReadWorkload drawThree))).read (str "usertable") (str "1")
        (some [str "fieldfield3"]) [] = (kOK, []) := by
  constructor
  · intro h
    have hmem := h digitArith oneFieldRead oneFieldReadWorkload drawThree init_oneFieldRead rfl
      (by decide) (by decide)
    exact absurd hmem (by decide +kernel)
  · decide +kernel

end NvrecYcsb.ClientRequests
