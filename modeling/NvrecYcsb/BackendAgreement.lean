/-
  NvrecYcsb/BackendAgreement.lean
  ===============================
  **The two in-memory back ends give the same answers.**

  One keeps a record as a list of pairs and merges into it, the other as a hash
  table of its own that it updates field by field.  A client of one table that
  inserts records that are absent, updates records that are present, and names
  its fields in C strings, cannot tell them apart: both follow the same store of
  records (`backends_agree`).

  The name of the table must be a C string as well.  The hash table back end
  cuts table and key, written after each other, at the first NUL, so under a
  table name with a NUL all keys are one record (`not_agree_nulTable`).
-/
import NvrecYcsb.HashtableDb
import NvrecYcsb.NvmDbRefinement
import NvrecYcsb.RecordRecovery

namespace NvrecYcsb.BackendAgreement

open CppRuntime RecoveryDefs RecoveryInterface RecordReplay RecordStore Runs NvmDb
open HashtableDb (Mem FieldHashtable indexOf opIndex outcome insertAll putField)
open RecordRecovery (Fields keyName lookup_eq_some_iff)
open NvmBlk (BlkEnv NVMBlkEngine)

/-! ### Calls and answers -/

/-- What NVMDB answers: the status, and the pairs of a read. -/
def nvmdbAnswer {ω σ : Type} (engine : RecoveryEngine ω σ) (s : NVMDB σ) (i : ω × Call)
    (result : List KVPair) : Outcome (Int × List KVPair) :=
  match i.2 with
  | .change op => (s.apply engine i.1 op).1 >>= fun status => .returned (status, result)
  | .read table key fields => .returned (s.read table key fields result)

/-- What HashtableDB answers; `none` when the call runs into a deleted table. -/
def hashtableAnswer (m : Mem) (call : Call) (result : List KVPair) : Option (Int × List KVPair) :=
  match call with
  | .change op => ((HashtableDb.program op).exec HashtableDb.handle m).map fun r => (r.1, result)
  | .read table key fields =>
    ((HashtableDb.read table key fields result).exec HashtableDb.handle m).map Prod.fst

/-- Both back ends return, with the same status and the same set of pairs. -/
def SameAnswer {ω σ : Type} (engine : RecoveryEngine ω σ) (result : List KVPair)
    (s : NVMDB σ × Mem) (i : ω × Call) : Prop :=
  ∃ status pairs pairs', nvmdbAnswer engine s.1 i result = .returned (status, pairs) ∧
    hashtableAnswer s.2 i.2 result = some (status, pairs') ∧ ∀ pair, pair ∈ pairs ↔ pair ∈ pairs'

/-- HashtableDB after a call of one client; a read leaves it as it is. -/
def hashtableStep (m : Mem) : Call → Mem
  | .change op => HashtableDb.step m op
  | .read _ _ _ => m

/-- The two back ends serving the same calls. -/
def bothStep {ω σ : Type} (engine : RecoveryEngine ω σ) (s : NVMDB σ × Mem) (i : ω × Call) :
    NVMDB σ × Mem :=
  (s.1.callStep engine i, hashtableStep s.2 i.2)

/-! ### What the client does -/

abbrev Records := Store (Str × Str) Str Str

/-- The records that a client has made. -/
def recordsStep (records : Records) : Call → Records
  | .change op => step records op.command
  | .read _ _ _ => records

/-- The decimal digits of a 64-bit number. -/
def Canonical (key : Str) : Prop := ∃ n : UInt64, key = keyName n

def NulFreePairs (values : List KVPair) : Prop := ∀ p ∈ values, NulFree p.1 ∧ NulFree p.2

instance : DecidablePred NulFreePairs := fun values =>
  inferInstanceAs (Decidable (∀ p ∈ values, NulFree p.1 ∧ NulFree p.2))

/-- The calls of the client, on one table: canonical keys, NUL-free names and values,
    inserts of absent records with distinct names, updates of present records. -/
def Discipline (table : Str) (records : Records) : Call → Prop
  | .read table' key fields => table' = table ∧ Canonical key ∧
      ∀ names, fields = some names → ∀ name ∈ names, NulFree name
  | .change (.insert table' key values) => table' = table ∧ Canonical key ∧
      NulFreePairs values ∧ (values.map Prod.fst).Nodup ∧ records (table, key) = none
  | .change (.update table' key values) => table' = table ∧ Canonical key ∧
      NulFreePairs values ∧ records (table, key) ≠ none
  | .change (.delete table' key) => table' = table ∧ Canonical key

/-- The engine succeeds when it is called. -/
def EngineSucceeds {ω σ : Type} (engine : RecoveryEngine ω σ) (s : NVMDB σ) (i : ω × Call) : Prop :=
  match i.2 with
  | .read _ _ _ => True
  | .change op => ∀ k call, stoul op.key = .returned k → op.engineCall s.tables k = some call →
      (engine.call i.1 s.recEngine call).1 = .returned .kSuccess

/-! ### Field tables as records -/

/-- A field table as a map from names to values. -/
def fieldsIn (t : FieldHashtable) : Fields := fun name => t[name]?

theorem insertAll_spec {values : List KVPair} (hnul : NulFreePairs values)
    (hnodup : (values.map Prod.fst).Nodup) {t : FieldHashtable}
    (habsent : ∀ p ∈ values, t[p.1]? = none) :
    (insertAll values t).1 = kOK ∧
      fieldsIn (insertAll values t).2 = overlay (carried values) (fieldsIn t) := by
  induction values generalizing t with
  | nil => exact ⟨rfl, rfl⟩
  | cons p values ih =>
    obtain ⟨hp, hnodup⟩ := List.nodup_cons.mp (List.map_cons ▸ hnodup)
    have hname : StlHashtable.cStr p.1 = p.1 :=
      StlHashtable.cStr_of_nulFree (hnul p List.mem_cons_self).1
    have hcopy : HashtableDb.copyString p.2 = p.2 :=
      StlHashtable.cStr_of_nulFree (hnul p List.mem_cons_self).2
    have hpabsent : t[p.1]? = none := habsent p List.mem_cons_self
    have hnew : (StlHashtable.insert t p.1 (HashtableDb.copyString p.2)).1 = true := by
      rw [StlHashtable.insert_fst, StlHashtable.get, hname, hpabsent]
      rfl
    have hget : ∀ name, (StlHashtable.insert t p.1 (HashtableDb.copyString p.2)).2[name]? =
        if p.1 = name then some p.2 else t[name]? := by
      intro name
      rw [StlHashtable.getElem?_insert_of_absent (hname.symm ▸ hpabsent), hname, hcopy]
    obtain ⟨hstatus, hfields⟩ := ih (fun q hq => hnul q (List.mem_cons_of_mem _ hq)) hnodup
      (t := (StlHashtable.insert t p.1 (HashtableDb.copyString p.2)).2) (by
        intro q hq
        have hne : p.1 ≠ q.1 := fun heq => hp (heq ▸ List.mem_map_of_mem hq)
        rw [hget, if_neg hne]
        exact habsent q (List.mem_cons_of_mem _ hq))
    rw [insertAll, hnew, if_pos rfl]
    refine ⟨hstatus, ?_⟩
    rw [hfields]
    funext name
    rw [overlay, overlay, fieldsIn, hget, carried_cons, Option.or_assoc]
    by_cases h : p.1 = name
    · simp [h]
    · simp [h, fieldsIn]

theorem fieldsIn_putField {p : KVPair} (hp : NulFree p.1 ∧ NulFree p.2) (t : FieldHashtable)
    (name : Str) :
    fieldsIn (putField t p) name = if p.1 = name then some p.2 else fieldsIn t name := by
  have hname : StlHashtable.cStr p.1 = p.1 := StlHashtable.cStr_of_nulFree hp.1
  have hcopy : HashtableDb.copyString p.2 = p.2 := StlHashtable.cStr_of_nulFree hp.2
  rw [putField, StlHashtable.update_fst, StlHashtable.get, hname, fieldsIn, fieldsIn, hcopy]
  cases hget : t[p.1]? with
  | some old =>
    show (StlHashtable.update t p.1 p.2).2[name]? = _
    rw [StlHashtable.getElem?_update, hname]
    by_cases h : p.1 = name
    · rw [if_pos h, if_pos h, ← h, hget, Option.map_some]
    · rw [if_neg h, if_neg h]
  | none =>
    show (StlHashtable.insert (StlHashtable.update t p.1 p.2).2 p.1 p.2).2[name]? = _
    rw [StlHashtable.getElem?_insert, StlHashtable.getElem?_update, hname]
    by_cases h : p.1 = name
    · rw [if_pos h, if_pos h, if_pos ⟨h, by rw [← h, hget, Option.map_none]⟩]
    · rw [if_neg h, if_neg h, if_neg fun hh => h hh.1]

theorem fieldsIn_foldl_putField {values : List KVPair} (hnul : NulFreePairs values)
    (t : FieldHashtable) :
    fieldsIn (values.foldl putField t) = overlay (carried values) (fieldsIn t) := by
  induction values generalizing t with
  | nil => rfl
  | cons p values ih =>
    rw [List.foldl_cons, ih fun q hq => hnul q (List.mem_cons_of_mem _ hq)]
    funext name
    rw [overlay, overlay, fieldsIn_putField (hnul p List.mem_cons_self), carried_cons,
      Option.or_assoc]
    by_cases h : p.1 = name
    · rw [if_pos h, if_pos h, Option.some_or]
    · rw [if_neg h, if_neg h, Option.none_or]

/-! ### Disciplined operations -/

/-- What a disciplined operation returns. -/
def statusOf {α : Type} : Op → Option α → Int
  | .delete _ _, none => kErrorNoData
  | _, _ => kOK

section Operations

variable {table : Str} {records : Records} {op : Op}

theorem command_place (hop : Discipline table records (.change op)) :
    op.command.1 = (table, op.key) ∧ op.table = table ∧ Canonical op.key := by
  cases op with
  | insert table' key values => exact ⟨Prod.ext hop.1 rfl, hop.1, hop.2.1⟩
  | update table' key values => exact ⟨Prod.ext hop.1 rfl, hop.1, hop.2.1⟩
  | delete table' key => exact ⟨Prod.ext hop.1 rfl, hop.1, hop.2⟩

theorem distinct_of_discipline (hop : Discipline table records (.change op)) : op.Distinct := by
  cases op with
  | insert table' key values => exact hop.2.2.2.1
  | update table' key values => trivial
  | delete table' key => trivial

/-- A disciplined operation on the hash tables does what the store of records does. -/
theorem outcome_spec (hop : Discipline table records (.change op))
    {record : Option FieldHashtable} (hrecord : record.map fieldsIn = records (table, op.key)) :
    (outcome op record).1 = statusOf op (records (table, op.key)) ∧
      (outcome op record).2.map fieldsIn = op.command.2.effect (records (table, op.key)) := by
  cases op with
  | insert table' key values =>
    obtain ⟨-, -, hnul, hnodup, habsent⟩ := hop
    have hnone : record = none := Option.map_eq_none_iff.mp (hrecord.trans habsent)
    obtain ⟨hstatus, hfields⟩ := insertAll_spec (t := ∅) hnul hnodup
      fun p _ => Std.ExtTreeMap.getElem?_empty
    have hempty : fieldsIn ∅ = blank := funext fun name => Std.ExtTreeMap.getElem?_empty
    rw [hempty, overlay_blank] at hfields
    rw [hnone]
    exact ⟨hstatus, congrArg some hfields⟩
  | update table' key values =>
    obtain ⟨-, -, hnul, hpresent⟩ := hop
    rw [← hrecord]
    cases record with
    | none => exact absurd hrecord.symm hpresent
    | some t => exact ⟨rfl, congrArg some (fieldsIn_foldl_putField hnul t)⟩
  | delete table' key =>
    rw [← hrecord]
    cases record with
    | none => exact ⟨rfl, rfl⟩
    | some t => exact ⟨rfl, rfl⟩

/-- A disciplined operation of NVMDB, when the engine succeeds. -/
theorem apply_status {ω σ : Type} {engine : RecoveryEngine ω σ} {env : ω} {s : NVMDB σ}
    (hrecords : recordsOf s.tables = records) (hop : Discipline table records (.change op))
    (hengine : EngineSucceeds engine s (env, .change op)) :
    (s.apply engine env op).1 = .returned (statusOf op (records (table, op.key))) := by
  obtain ⟨-, htable, n, hkey⟩ := command_place hop
  have hstoul : stoul op.key = .returned n := by rw [hkey, RecordRecovery.stoul_keyName]
  have hrecord : records (table, op.key) = (record s.tables op.table op.key).map asMap := by
    rw [← hrecords, htable]
    rfl
  cases op with
  | insert table' key values => exact persist_of_success hstoul (hengine n _ hstoul rfl)
  | update table' key values =>
    rw [NVMDB.apply, NVMDB.update, findByTableKey_eq]
    cases hstored : record s.tables table' key with
    | none => exact absurd (hrecord.trans (congrArg (Option.map asMap) hstored)) hop.2.2.2
    | some storedValues =>
      refine persist_of_success hstoul (hengine n _ hstoul ?_)
      rw [Op.engineCall, hstored, Option.map_some]
  | delete table' key =>
    rw [NVMDB.apply, NVMDB.delete, findByTableKey_eq]
    rw [hrecord, show record s.tables (Op.delete table' key).table (Op.delete table' key).key =
      record s.tables table' key from rfl]
    cases hstored : record s.tables table' key with
    | none => rfl
    | some storedValues =>
      refine persist_of_success hstoul (hengine n _ hstoul ?_)
      rw [Op.engineCall, hstored, Option.map_some]

end Operations

/-! ### The simulation -/

/-- Both back ends hold the records of the client. -/
structure Simulates {σ : Type} (table : Str) (records : Records) (s : NVMDB σ × Mem) : Prop where
  nvmdb : recordsOf s.1.tables = records
  names : DistinctNames s.1.tables
  wellFormed : s.2.WellFormed
  hashtable : ∀ n : UInt64, (s.2.recordAt (indexOf table (keyName n))).map fieldsIn =
    records (table, keyName n)

theorem nulFree_keyName (n : UInt64) : NulFree (keyName n) := by
  intro h
  have hdigit := isDigit_of_mem_stdToString h
  cases hdigit

theorem indexOf_keyName_inj {table : Str} (htable : NulFree table) {n n' : UInt64} :
    indexOf table (keyName n) = indexOf table (keyName n') ↔ n = n' := by
  rw [indexOf, indexOf,
    StlHashtable.cStr_of_nulFree (StlHashtable.nulFree_append htable (nulFree_keyName n)),
    StlHashtable.cStr_of_nulFree (StlHashtable.nulFree_append htable (nulFree_keyName n')),
    List.append_right_inj]
  exact RecordRecovery.keyName_injective.eq_iff

section Simulation

variable {ω σ : Type} {engine : RecoveryEngine ω σ} {table : Str} {records : Records}
  {s : NVMDB σ × Mem} (hs : Simulates table records s)
include hs

theorem fieldsIn_opIndex {op : Op} (hop : Discipline table records (.change op)) :
    (s.2.recordAt (opIndex op)).map fieldsIn = records (table, op.key) := by
  obtain ⟨-, htable, n, hkey⟩ := command_place hop
  rw [opIndex, htable, hkey]
  exact hs.hashtable n

theorem sameAnswer_change {env : ω} {op : Op} (hop : Discipline table records (.change op))
    (hengine : EngineSucceeds engine s.1 (env, .change op)) (result : List KVPair) :
    SameAnswer engine result s (env, .change op) := by
  obtain ⟨m', hexec, -⟩ := HashtableDb.exec_program hs.wellFormed op
  have hstatus := (outcome_spec hop (fieldsIn_opIndex hs hop)).1
  refine ⟨statusOf op (records (table, op.key)), result, result, ?_, ?_, fun _ => Iff.rfl⟩
  · show (s.1.apply engine env op).1 >>= _ = _
    rw [apply_status hs.nvmdb hop hengine]
    rfl
  · rw [hashtableAnswer, hexec, Option.map_some, ← hstatus]

theorem sameAnswer_read {env : ω} {key : Str} {fields : Option (List Str)}
    (hread : Discipline table records (.read table key fields)) (result : List KVPair) :
    SameAnswer engine result s (env, .read table key fields) := by
  obtain ⟨-, ⟨n, rfl⟩, hnames⟩ := hread
  have hnvmdb : (record s.1.tables table (keyName n)).map asMap = records (table, keyName n) :=
    congrFun hs.nvmdb (table, keyName n)
  have hhash := hs.hashtable n
  rw [SameAnswer]
  simp only [nvmdbAnswer, hashtableAnswer, read_eq, HashtableDb.exec_read hs.wellFormed,
    Option.map_some]
  cases hrecord : record s.1.tables table (keyName n) with
  | none =>
    rw [hrecord] at hnvmdb
    have hnone := Option.map_eq_none_iff.mp (hhash.trans hnvmdb.symm)
    rw [hnone]
    exact ⟨kErrorNoData, result, result, rfl, rfl, fun _ => Iff.rfl⟩
  | some values =>
    rw [hrecord] at hnvmdb
    obtain ⟨t, ht, hfields⟩ := Option.map_eq_some_iff.mp (hhash.trans hnvmdb.symm)
    have hmem : ∀ pair : KVPair, pair ∈ values ↔ t[pair.1]? = some pair.2 := by
      intro pair
      rw [← lookup_eq_some_iff (hs.names _ _ values hrecord)]
      exact Eq.congr (congrFun hfields pair.1).symm rfl
    rw [ht]
    cases fields with
    | none =>
      refine ⟨kOK, values, _, rfl, rfl, ?_⟩
      intro pair
      rw [hmem, StlHashtable.mem_entries_iff]
    | some names =>
      refine ⟨kOK, _, _, rfl, rfl, ?_⟩
      intro pair
      rw [List.mem_filter, hmem, List.mem_filterMap, decide_eq_true_eq]
      constructor
      · rintro ⟨hvalue, hname⟩
        refine ⟨pair.1, hname, ?_⟩
        rw [StlHashtable.get, StlHashtable.cStr_of_nulFree (hnames names rfl _ hname), hvalue]
        rfl
      · rintro ⟨name, hname, hget⟩
        rw [StlHashtable.get, StlHashtable.cStr_of_nulFree (hnames names rfl _ hname)] at hget
        obtain ⟨value, hvalue, rfl⟩ := Option.map_eq_some_iff.mp hget
        exact ⟨hvalue, hname⟩

theorem simulates_change (htable : NulFree table) {env : ω} {op : Op}
    (hop : Discipline table records (.change op)) :
    Simulates table (recordsStep records (.change op)) (bothStep engine s (env, .change op)) := by
  have hdistinct := distinct_of_discipline hop
  obtain ⟨hplace, hoptable, n, hkey⟩ := command_place hop
  have hbecomes := HashtableDb.step_spec hs.wellFormed op
  have hrecord := fieldsIn_opIndex hs hop
  have htables : (bothStep engine s (env, .change op)).1.tables = op.tablesAfter s.1.tables :=
    tables_apply engine env s.1 op
  refine ⟨?_, ?_, hbecomes.wellFormed, ?_⟩
  · rw [htables, recordsOf_tablesAfter _ hdistinct, hs.nvmdb]
    rfl
  · rw [htables]
    exact distinctNames_tablesAfter hs.names hdistinct
  · intro n'
    have hindex : indexOf table (keyName n') = opIndex op ↔ n' = n := by
      rw [opIndex, hoptable, hkey]
      exact indexOf_keyName_inj htable
    show ((HashtableDb.step s.2 op).recordAt _).map fieldsIn = step records op.command _
    rw [hbecomes.recordAt, step_apply, hplace]
    by_cases h : n' = n
    · subst h
      rw [if_pos (hindex.mpr rfl), if_pos (by rw [hkey]), (outcome_spec hop hrecord).2, hkey]
    · have hne : (table, op.key) ≠ (table, keyName n') := by
        intro heq
        rw [hkey] at heq
        exact h (RecordRecovery.keyName_injective (congrArg Prod.snd heq)).symm
      rw [if_neg (mt hindex.mp h), if_neg hne]
      exact hs.hashtable n'

end Simulation

theorem simulates_init {σ : Type} (table : Str) (e : σ) :
    Simulates table (fun _ => none) (⟨∅, e⟩, Mem.empty) := by
  refine ⟨?_, ?_, HashtableDb.Mem.wellFormed_empty, ?_⟩
  · funext place
    exact congrArg (Option.map asMap) (record_empty place.1 place.2)
  · intro table key values hrecord
    rw [record_empty] at hrecord
    cases hrecord
  · intro n
    rw [HashtableDb.Mem.recordAt_empty]
    rfl

/-- **The back ends agree**: every call of a disciplined client, when the engine
    succeeds, returns the same status and the same set of pairs from both. -/
theorem backends_agree {ω σ : Type} (engine : RecoveryEngine ω σ) (e : σ) {table : Str}
    (htable : NulFree table) (calls : List (ω × Call))
    (hdiscipline : AllSteps (fun records i => recordsStep records i.2)
      (fun records i => Discipline table records i.2) (fun _ => none) calls)
    (hengine : AllSteps (NVMDB.callStep engine) (EngineSucceeds engine) ⟨∅, e⟩ calls)
    (result : List KVPair) :
    AllSteps (bothStep engine) (SameAnswer engine result) (⟨∅, e⟩, Mem.empty) calls := by
  have hall : ∀ (calls : List (ω × Call)) (records : Records) (s : NVMDB σ × Mem),
      Simulates table records s →
      AllSteps (fun records i => recordsStep records i.2)
        (fun records i => Discipline table records i.2) records calls →
      AllSteps (NVMDB.callStep engine) (EngineSucceeds engine) s.1 calls →
      AllSteps (bothStep engine) (SameAnswer engine result) s calls := by
    intro calls
    induction calls with
    | nil => exact fun _ _ _ _ _ => trivial
    | cons i calls ih =>
      intro records s hs hdiscipline hengine
      obtain ⟨env, call⟩ := i
      cases call with
      | change op =>
        refine ⟨sameAnswer_change hs hdiscipline.1 hengine.1 result, ?_⟩
        exact ih _ _ (simulates_change hs htable hdiscipline.1) hdiscipline.2 hengine.2
      | read table' key fields =>
        obtain rfl := hdiscipline.1.1
        refine ⟨sameAnswer_read hs hdiscipline.1 result, ?_⟩
        exact ih _ _ hs hdiscipline.2 hengine.2
  exact hall calls _ _ (simulates_init table e) hdiscipline hengine

theorem engineSucceeds_of_key {ω σ : Type} {engine : RecoveryEngine ω σ} {s : NVMDB σ} {env : ω}
    {op : Op} {k : UInt64} (hk : stoul op.key = .returned k)
    (h : (op.engineCall s.tables k).all fun call =>
      (engine.call env s.recEngine call).1 = .returned .kSuccess) :
    EngineSucceeds engine s (env, .change op) := by
  intro k' call hk' hcall
  obtain rfl := Outcome.returned.inj (hk.symm.trans hk')
  rw [hcall, Option.all_some] at h
  exact of_decide_eq_true h

/-- A record of two fields: one is overwritten twice and one is added. -/
def insertUpdateRead : List (BlkEnv × Call) :=
  [({}, .change (.insert (str "t") (keyName 1)
      [(str "field0", str "x"), (str "field1", str "y")])),
    ({}, .change (.update (str "t") (keyName 1)
      [(str "field1", str "z"), (str "field2", str "w"), (str "field1", str "v")])),
    ({}, .read (str "t") (keyName 1) (some [str "field1", str "field1"]))]

theorem backends_agree_insertUpdateRead :
    AllSteps (bothStep NvmBlk.engine) (SameAnswer NvmBlk.engine [])
      (⟨∅, NVMBlkEngine.create 1⟩, Mem.empty) insertUpdateRead := by
  refine backends_agree NvmBlk.engine (NVMBlkEngine.create 1)
    (by decide : NulFree (str "t")) insertUpdateRead ⟨?_, ?_, ?_, trivial⟩ ?_ []
  · exact ⟨rfl, ⟨1, rfl⟩, by decide, by decide, rfl⟩
  · exact ⟨rfl, ⟨1, rfl⟩, by decide, Option.some_ne_none _⟩
  · refine ⟨rfl, ⟨1, rfl⟩, ?_⟩
    rintro names ⟨⟩
    decide
  · refine ⟨engineSucceeds_of_key (RecordRecovery.stoul_keyName 1) ?_,
      engineSucceeds_of_key (RecordRecovery.stoul_keyName 1) ?_, trivial, trivial⟩
    · decide +kernel
    · decide +kernel

/-- An insert of one key and a read of another, under the table name of one NUL. -/
def insertReadOther : List (BlkEnv × Call) :=
  [({}, .change (.insert [0] (keyName 1) [])), ({}, .read [0] (keyName 2) none)]

/-- **Under a table name with a NUL all keys are one record** of the hash tables: the
    key that was never inserted is found there, and not by NVMDB. -/
theorem not_agree_nulTable :
    ¬∀ (table : Str) (calls : List (BlkEnv × Call)),
      AllSteps (fun records i => recordsStep records i.2)
        (fun records i => Discipline table records i.2) (fun _ => none) calls →
      AllSteps (NVMDB.callStep NvmBlk.engine) (EngineSucceeds NvmBlk.engine)
        ⟨∅, NVMBlkEngine.create 1⟩ calls →
      AllSteps (bothStep NvmBlk.engine) (SameAnswer NvmBlk.engine [])
        (⟨∅, NVMBlkEngine.create 1⟩, Mem.empty) calls := by
  intro h
  have hall := h [0] insertReadOther ⟨?_, ?_, trivial⟩ ⟨?_, trivial, trivial⟩
  · obtain ⟨-, ⟨status, pairs, pairs', hnvmdb, hhashtable, -⟩, -⟩ := hall
    let s : NVMDB NVMBlkEngine × Mem := bothStep NvmBlk.engine
      (⟨∅, NVMBlkEngine.create 1⟩, Mem.empty) ({}, .change (.insert [0] (keyName 1) []))
    have hmissing : nvmdbAnswer NvmBlk.engine s.1 ({}, .read [0] (keyName 2) none) [] =
        .returned (kErrorNoData, []) := by decide +kernel
    have hfound : hashtableAnswer s.2 (.read [0] (keyName 2) none) [] = some (kOK, []) := by
      decide +kernel
    have hstatus : kErrorNoData = status :=
      congrArg Prod.fst (Outcome.returned.inj (hmissing.symm.trans hnvmdb))
    have hstatus' : kOK = status :=
      congrArg Prod.fst (Option.some.inj (hfound.symm.trans hhashtable))
    exact absurd (hstatus.trans hstatus'.symm) (by decide)
  · exact ⟨rfl, ⟨1, rfl⟩, by decide, by decide, rfl⟩
  · refine ⟨rfl, ⟨2, rfl⟩, ?_⟩
    rintro names ⟨⟩
  · refine engineSucceeds_of_key (RecordRecovery.stoul_keyName 1) ?_
    decide +kernel

end NvrecYcsb.BackendAgreement
