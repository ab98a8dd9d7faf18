/-
  NvrecYcsb/RecordAddress.lean
  ============================
  **Where the fields of a record are persisted.**

  A persisted tuple has a number for its key and ten arrays for its fields; it
  does not say of which table it is.  The number is what `std::stoul` reads of
  the key, the array what `std::stoi` reads behind the first five bytes of the
  name.  The keys and names a client makes are read back as they were made, so
  within one table different fields of different records are persisted apart
  (`addresses_apart`); two tables share their addresses, and so do keys that
  `std::stoul` reads alike (`not_addresses_apart`).
-/
import NvrecYcsb.InPlaceRecovery
import NvrecYcsb.NvmDbRefinement

namespace NvrecYcsb.RecordAddress

open CppRuntime RecoveryDefs RecoveryInterface TupleCodec NvmDb KeyedLog RecordReplay Framing
  Runs RecordRecovery InPlaceRecovery
open NvmBlk (BlkEnv NVMBlkEngine)
open NvmLog (LogEnv NVMLogEngine)
open NvRec (NVRecEngine Tick)

/-! ### Addresses -/

/-- The array that `DBToRaw` copies the values of a name to. -/
def fieldIndex (name : Str) : Outcome (Fin kNumOfFields) :=
  if name.length < kDefautFieldName.length then .threw .outOfRange
  else do
    let parsed ← stoi (name.drop kDefautFieldName.length)
    let i := (parsed % 2 ^ 64).toNat
    if h : i < kNumOfFields then .returned ⟨i, h⟩ else .aborted

/-- `Tuple.key` and the array under which a field of a record is persisted. -/
def address (place : Str × Str × Str) : Outcome (UInt64 × Fin kNumOfFields) := do
  let k ← stoul place.2.1
  let i ← fieldIndex place.2.2
  return (k, i)

theorem dbToRawStep_eq (tuple : Tuple) (name v : Str) :
    dbToRawStep tuple (name, v) = fieldIndex name >>= fun i =>
      if hv : v.length ≤ kFieldSize then .returned (tuple.copyTo i v hv) else .aborted := by
  rw [dbToRawStep, fieldIndex]
  by_cases hlength : name.length < kDefautFieldName.length
  · rw [if_pos hlength, if_pos hlength]
    rfl
  · rw [if_neg hlength, if_neg hlength]
    cases stoi (name.drop kDefautFieldName.length) with
    | returned parsed =>
      simp only [Outcome.returned_bind]
      by_cases hi : (parsed % 2 ^ 64).toNat < kNumOfFields
      · by_cases hv : v.length ≤ kFieldSize
        · rw [dif_pos ⟨hi, hv⟩, dif_pos hi, Outcome.returned_bind, dif_pos hv]
        · rw [dif_neg fun h => hv h.2, dif_pos hi, Outcome.returned_bind, dif_neg hv]
      · rw [dif_neg fun h => hi h.1, dif_neg hi]
        rfl
    | threw e => rfl
    | aborted => rfl
    | undefined => rfl
    | running => rfl

theorem fieldIndex_fieldName (i : Fin kNumOfFields) : fieldIndex (fieldName i) = .returned i := by
  have hlt : (i : Nat) < 10 := i.isLt
  have hsize : (((i : Nat) : Int) % 2 ^ 64).toNat = (i : Nat) := by omega
  have hcheck : (((i : Nat) : Int) % 2 ^ 64).toNat < kNumOfFields := by
    rw [hsize]
    exact i.isLt
  rw [fieldIndex, if_neg (length_fieldName i), drop_fieldName, stoi_stdToString (by omega),
    Outcome.returned_bind, dif_pos hcheck]
  exact congrArg Outcome.returned (Fin.ext hsize)

/-- **Canonical keys and names are addresses**: what they were made from is read back. -/
theorem address_canonical (table : Str) (k : UInt64) (i : Fin kNumOfFields) :
    address (table, keyName k, fieldName i) = .returned (k, i) := by
  rw [address, stoul_keyName, Outcome.returned_bind, fieldIndex_fieldName, Outcome.returned_bind]
  rfl

/-- The place is in the table, its key the decimal digits of a 64-bit number, its name
    that of one of the ten fields. -/
def CanonicalIn (table : Str) (place : Str × Str × Str) : Prop :=
  ∃ (k : UInt64) (i : Fin kNumOfFields), place = (table, keyName k, fieldName i)

theorem address_inj {table : Str} {place place' : Str × Str × Str}
    (h : CanonicalIn table place) (h' : CanonicalIn table place')
    (heq : address place = address place') : place = place' := by
  obtain ⟨k, i, rfl⟩ := h
  obtain ⟨k', i', rfl⟩ := h'
  rw [address_canonical, address_canonical] at heq
  obtain ⟨rfl, rfl⟩ := Prod.mk.inj (Outcome.returned.inj heq)
  rfl

/-! ### What a tuple says of the fields it does not carry -/

theorem foldlM_dbToRawStep_keeps {values : List KVPair} {tuple raw : Tuple}
    (h : values.foldlM dbToRawStep tuple = .returned raw) :
    raw.deleted = tuple.deleted ∧ ∀ i : Fin kNumOfFields,
      (∀ p ∈ values, fieldIndex p.1 ≠ .returned i) → raw.fields i = tuple.fields i := by
  induction values generalizing tuple with
  | nil =>
    obtain rfl := Outcome.returned.inj h
    exact ⟨rfl, fun _ _ => rfl⟩
  | cons p values ih =>
    obtain ⟨name, v⟩ := p
    rw [List.foldlM_cons, dbToRawStep_eq, Outcome.bind_eq_returned] at h
    obtain ⟨mid, hmid, hrest⟩ := h
    obtain ⟨j, hj, hcopy⟩ := Outcome.bind_eq_returned.mp hmid
    by_cases hv : v.length ≤ kFieldSize
    · rw [dif_pos hv] at hcopy
      obtain rfl := Outcome.returned.inj hcopy
      obtain ⟨hdeleted, hfields⟩ := ih hrest
      refine ⟨hdeleted, ?_⟩
      intro i hi
      have hne : i ≠ j := by
        rintro rfl
        exact hi (name, v) List.mem_cons_self hj
      rw [hfields i fun q hq => hi q (List.mem_cons_of_mem _ hq)]
      exact Function.update_of_ne hne _ _
    · rw [dif_neg hv] at hcopy
      cases hcopy

/-- **A tuple leaves the arrays of the fields it does not carry empty.** -/
theorem fields_of_not_carried {k : UInt64} {values : List KVPair} {tuple : Tuple}
    (h : (PersistCall.update k values).tuple = .returned tuple) :
    tuple.deleted = false ∧ ∀ f : Fin kNumOfFields,
      (∀ p ∈ values, fieldIndex p.1 ≠ .returned f) → tuple.fields f = Field.zero := by
  obtain ⟨raw, hraw, heq⟩ := Outcome.bind_eq_returned.mp h
  obtain rfl := Outcome.returned.inj heq
  exact foldlM_dbToRawStep_keeps hraw

theorem fieldsOf_of_zero {tuple : Tuple} {i : Fin kNumOfFields}
    (h : tuple.fields i = Field.zero) : fieldsOf tuple (fieldName i) = none := by
  rw [fieldsOf]
  cases hraw : rawToDB tuple with
  | returned values =>
    obtain ⟨len, hlen, rfl⟩ := exists_strlen_of_rawToDB hraw
    rw [List.lookup_eq_none_iff]
    intro p hp
    obtain ⟨j, -, hj⟩ := List.mem_filterMap.mp hp
    rw [decodedPair] at hj
    by_cases hpos : len j > 0
    · rw [if_pos hpos] at hj
      obtain rfl := Option.some.inj hj
      have hne : fieldName i ≠ fieldName j := by
        intro heq
        obtain rfl := Fin.ext (fieldName_inj.mp heq)
        have hzero : strlen (tuple.memoryFrom i) = some 0 := strlen_of_zero (congrArg Field.str h)
        rw [hlen i] at hzero
        exact absurd (Option.some.inj hzero) hpos.ne'
      exact bne_iff_ne.mpr hne
    · rw [if_neg hpos] at hj
      cases hj
  | threw e => rfl
  | aborted => rfl
  | undefined => rfl
  | running => rfl

/-! ### What is persisted about a key -/

/-- The key that a call is about. -/
def callKey : PersistCall → UInt64
  | .update k _ => k
  | .delete k => k

/-- An engine whose calls, while its devices work, change what is persisted about one
    key only. -/
structure TupleReading {ω σ : Type} (engine : RecoveryEngine ω σ) where
  Inv : σ → Prop
  Works : σ → ω × PersistCall → Prop
  persisted : σ → UInt64 → List Tuple
  keeps : ∀ {s env call}, Inv s → Works s (env, call) → Inv (engine.call env s call).2 ∧
    ∀ k, k ≠ callKey call → persisted (engine.call env s call).2 k = persisted s k

theorem key_of_tuple {call : PersistCall} {tuple : Tuple} (h : call.tuple = .returned tuple) :
    tuple.key = callKey call := by
  cases call with
  | update k values =>
    obtain ⟨raw, -, hraw⟩ := Outcome.bind_eq_returned.mp h
    obtain rfl := Outcome.returned.inj hraw
    rfl
  | delete k =>
    obtain rfl := Outcome.returned.inj h
    rfl

section Stores

variable {ω σ : Type} {store : ω → σ → Tuple → Outcome RecoveryStatus × σ}

/-- A call that builds no tuple does not reach the store. -/
theorem call_ofStore_cases (env : ω) (s : σ) (call : PersistCall) :
    ((RecoveryEngine.ofStore store).call env s call).2 = s ∨
      ∃ tuple, call.tuple = .returned tuple ∧
        (RecoveryEngine.ofStore store).call env s call = store env s tuple := by
  rw [call_ofStore]
  cases htuple : call.tuple with
  | returned tuple => exact Or.inr ⟨tuple, rfl, persistTuple_of_tuple store htuple⟩
  | threw e => left; rw [persistTuple, htuple]; rfl
  | aborted => left; rw [persistTuple, htuple]; rfl
  | undefined => left; rw [persistTuple, htuple]; rfl
  | running => left; rw [persistTuple, htuple]; rfl

end Stores

theorem keeps_of_put {ω σ : Type} {engine : RecoveryEngine ω σ} (I : InPlaceEngine engine) {s : σ}
    {env : ω} {call : PersistCall} {tuple : Tuple} (hinv : I.Inv s) (hworks : I.Works s (env, call))
    (htuple : call.tuple = .returned tuple)
    (hsuccess : (engine.call env s call).1 = .returned .kSuccess) :
    I.Inv (engine.call env s call).2 ∧ ∀ k, k ≠ callKey call →
      (I.reading (engine.call env s call).2).persisted Tuple.key k =
        (I.reading s).persisted Tuple.key k := by
  obtain ⟨hinv', hput⟩ := I.put hinv hworks htuple hsuccess
  refine ⟨hinv', ?_⟩
  intro k hk
  exact InPlace.persisted_put_ne hput (key_of_tuple htuple ▸ hk)

/-- The block engine: the tuples on disk and in the blocks that its table names. -/
def blkTuples : TupleReading NvmBlk.engine where
  Inv s := BlkFramed s ∧ 0 < s.maxNumBlocks
  Works _ i := i.1.Ok
  persisted s k := (blkReading s).persisted Tuple.key k
  keeps {s env call} hinv hok := by
    rcases call_ofStore_cases env s call with hsame | ⟨tuple, htuple, hcall⟩
    · rw [NvmBlk.engine, hsame]
      exact ⟨hinv, fun _ _ => rfl⟩
    · have hsuccess : (NvmBlk.engine.call env s call).1 = .returned .kSuccess :=
        (congrArg Prod.fst hcall).trans
          (NVMBlkEngine.updateTuple_kSuccess hok hinv.1.inv hinv.2 tuple)
      obtain ⟨hframed, hkeeps⟩ := keeps_of_put blkInPlace hinv.1 hok.diskWrite htuple hsuccess
      refine ⟨⟨hframed, ?_⟩, hkeeps⟩
      have hblocks := NVMBlkEngine.maxNumBlocks_updateTuple env s tuple
      rw [NvmBlk.engine, hcall]
      exact hblocks ▸ hinv.2

/-- The asynchronous engine: the tuples on disk, those of the pool that is being
    flushed, and the list of the current pool.  A call is seen to its end. -/
def recTuples (capacity : Nat) : TupleReading NvRec.engine where
  Inv s := s.Idle (recReading s)
  Works s i := (recInPlace capacity).Works s i ∧ (NvRec.engine.call i.1 s i.2).1 ≠ .running
  persisted s k := (recReading s).persisted Tuple.key k
  keeps {s env call} hinv hworks := by
    rcases call_ofStore_cases env s call with hsame | ⟨tuple, htuple, hcall⟩
    · rw [NvRec.engine, hsame]
      exact ⟨hinv, fun _ _ => rfl⟩
    · obtain ⟨hdevices, hended⟩ := hworks
      have hended' : (NvRec.persistRaw env s tuple).1 ≠ .running := by
        rw [← hcall]
        exact hended
      obtain ⟨s', st', hstored, -, -⟩ :=
        NVRecEngine.persistRaw_put hinv tuple (hdevices tuple htuple) hended'
      have hsuccess : (NvRec.engine.call env s call).1 = .returned .kSuccess :=
        congrArg Prod.fst (hcall.trans hstored)
      exact keeps_of_put (recInPlace capacity) hinv hdevices htuple hsuccess

/-- The tuples in the disk log and then in the NVM log. -/
def logTuplesOf (s : NVMLogEngine) : List Tuple :=
  tupleCode.readAll s.diskLog ++ tupleCode.readAll s.logPool

structure LogInv (s : NVMLogEngine) : Prop where
  synced : NVMLogEngine.Synced s
  size : sizeofTuple ≤ s.availableBytes
  journal : ∃ ds ns, NVMLogEngine.Journal s ds ns

theorem logTuplesOf_journal {s : NVMLogEngine} {ds ns : List Tuple}
    (h : NVMLogEngine.Journal s ds ns) : logTuplesOf s = ds ++ ns := by
  rw [logTuplesOf, h.disk, h.log, FixedCode.readAll_writeAll, FixedCode.readAll_writeAll]

/-- **A call of the log engine appends its tuple, if it builds one.** -/
theorem log_call {s : NVMLogEngine} {env : LogEnv} (hs : LogInv s) (henv : env.Ok)
    (call : PersistCall) :
    LogInv (NvmLog.engine.call env s call).2 ∧
      (logTuplesOf (NvmLog.engine.call env s call).2 = logTuplesOf s ∨
        ∃ tuple, call.tuple = .returned tuple ∧
          logTuplesOf (NvmLog.engine.call env s call).2 = logTuplesOf s ++ [tuple]) := by
  rcases call_ofStore_cases env s call with hsame | ⟨tuple, htuple, hcall⟩
  · rw [NvmLog.engine, hsame]
    exact ⟨hs, Or.inl rfl⟩
  · obtain ⟨ds, ns, hjournal⟩ := hs.journal
    obtain ⟨s', ds', ns', hstored, hsynced, havailable, hjournal', happend⟩ :=
      NVMLogEngine.updateOnLog_journal hs.synced hs.size henv hjournal tuple
    have hafter : (NvmLog.engine.call env s call).2 = s' := congrArg Prod.snd (hcall.trans hstored)
    rw [hafter, logTuplesOf_journal hjournal', logTuplesOf_journal hjournal]
    exact ⟨⟨hsynced, havailable ▸ hs.size, ds', ns', hjournal'⟩, Or.inr ⟨tuple, htuple, happend⟩⟩

def logTuples : TupleReading NvmLog.engine where
  Inv := LogInv
  Works _ i := i.1.Ok
  persisted s k := about Tuple.key k (logTuplesOf s)
  keeps {s env call} hs henv := by
    obtain ⟨hs', hcase⟩ := log_call hs henv call
    refine ⟨hs', ?_⟩
    intro k hk
    rcases hcase with hsame | ⟨tuple, htuple, happend⟩
    · rw [hsame]
    · have hne : tuple.key ≠ k := (key_of_tuple htuple).symm ▸ hk.symm
      rw [happend, about_append, about_cons_ne hne, about_nil, List.append_nil]

/-! ### Operations -/

section Operations

variable {ω σ : Type} {engine : RecoveryEngine ω σ} (R : TupleReading engine)

/-- The devices work for the call that the operation makes, if it makes one. -/
def DevicesWork (s : NVMDB σ) (i : ω × Op) : Prop :=
  ∀ k call, stoul i.2.key = .returned k → i.2.engineCall s.tables k = some call →
    R.Works s.recEngine (i.1, call)

/-- The operation leaves what is persisted about every other key alone. -/
def LeavesOthers (s : NVMDB σ) (i : ω × Op) : Prop :=
  ∀ k, stoul i.2.key ≠ .returned k →
    R.persisted (s.step engine i).recEngine k = R.persisted s.recEngine k

theorem callKey_engineCall {tables : Tables} {op : Op} {k : UInt64} {call : PersistCall}
    (h : op.engineCall tables k = some call) : callKey call = k := by
  cases op with
  | insert table key values =>
    obtain rfl := Option.some.inj h
    rfl
  | update table key values =>
    obtain ⟨-, -, rfl⟩ := Option.map_eq_some_iff.mp h
    rfl
  | delete table key =>
    obtain ⟨-, -, rfl⟩ := Option.map_eq_some_iff.mp h
    rfl

theorem leavesOthers_step {s : NVMDB σ} {i : ω × Op} (hinv : R.Inv s.recEngine)
    (hworks : DevicesWork R s i) :
    R.Inv (s.step engine i).recEngine ∧ LeavesOthers R s i := by
  rcases serves_apply engine i.1 s i.2 with hsame | ⟨k, call, hkey, hcall, hserved⟩
  · rw [LeavesOthers, NVMDB.step, hsame]
    exact ⟨hinv, fun _ _ => rfl⟩
  · obtain ⟨hinv', hkeeps⟩ := R.keeps hinv (hworks k call hkey hcall)
    rw [LeavesOthers, NVMDB.step, hserved]
    refine ⟨hinv', ?_⟩
    intro k' hk'
    apply hkeeps k'
    rintro rfl
    rw [callKey_engineCall hcall] at hk'
    exact hk' hkey

/-- **Over whole runs**: no operation changes what is persisted about another key. -/
theorem leavesOthers_run {s : NVMDB σ} {script : List (ω × Op)} (hinv : R.Inv s.recEngine)
    (hworks : AllSteps (NVMDB.step engine) (DevicesWork R) s script) :
    AllSteps (NVMDB.step engine) (LeavesOthers R) s script := by
  induction script generalizing s with
  | nil => trivial
  | cons i script ih =>
    obtain ⟨hinv', hleaves⟩ := leavesOthers_step R hinv hworks.1
    exact ⟨hleaves, ih hinv' hworks.2⟩

end Operations

/-- The value that the persisted tuples of a key give one of its fields. -/
def fieldValue (tuples : List Tuple) (i : Fin kNumOfFields) : Option Str :=
  (rebuild tuples).bind fun fields => fields (fieldName i)

/-- The pairs that an operation carries; a Delete carries none and erases all. -/
def carriedBy : Op → Option (List KVPair)
  | .insert _ _ values => some values
  | .update _ _ values => some values
  | .delete _ _ => none

/-- An Insert or Update leaves the persisted values of the fields it does not carry. -/
def LeavesFields (s : NVMDB NVMLogEngine) (i : LogEnv × Op) : Prop :=
  ∀ values k f, carriedBy i.2 = some values → stoul i.2.key = .returned k →
    (∀ p ∈ values, fieldIndex p.1 ≠ .returned f) →
    fieldValue (logTuples.persisted (s.step NvmLog.engine i).recEngine k) f =
      fieldValue (logTuples.persisted s.recEngine k) f

theorem fieldValue_snoc (tuples : List Tuple) {tuple : Tuple} (hlive : tuple.deleted = false)
    {f : Fin kNumOfFields} (hf : tuple.fields f = Field.zero) :
    fieldValue (tuples ++ [tuple]) f = fieldValue tuples f := by
  rw [fieldValue, rebuild, List.map_append, List.map_singleton, replay_snoc, changeOf, hlive,
    fieldValue, rebuild]
  show overlay (fieldsOf tuple) _ (fieldName f) = _
  rw [overlay, fieldsOf_of_zero hf, Option.none_or]
  cases replay none (tuples.map changeOf) <;> rfl

theorem carriedBy_engineCall {tables : Tables} {op : Op} {k : UInt64} {call : PersistCall}
    {values : List KVPair} (hcarried : carriedBy op = some values)
    (hcall : op.engineCall tables k = some call) : call = .update k values := by
  cases op with
  | insert table key values' =>
    obtain rfl := Option.some.inj hcarried
    exact (Option.some.inj hcall).symm
  | update table key values' =>
    obtain rfl := Option.some.inj hcarried
    obtain ⟨-, -, rfl⟩ := Option.map_eq_some_iff.mp hcall
    rfl
  | delete table key => cases hcarried

theorem leavesFields_step {s : NVMDB NVMLogEngine} {i : LogEnv × Op} (hinv : LogInv s.recEngine)
    (henv : i.1.Ok) : LogInv (s.step NvmLog.engine i).recEngine ∧ LeavesFields s i := by
  rcases serves_apply NvmLog.engine i.1 s i.2 with hsame | ⟨k, call, hkey, hcall, hserved⟩
  · rw [LeavesFields, NVMDB.step, hsame]
    exact ⟨hinv, fun _ _ _ _ _ _ => rfl⟩
  · obtain ⟨hinv', hcase⟩ := log_call hinv henv call
    rw [LeavesFields, NVMDB.step, hserved]
    refine ⟨hinv', ?_⟩
    intro values k' f hcarried hkey' hf
    obtain rfl := Outcome.returned.inj (hkey.symm.trans hkey')
    obtain rfl := carriedBy_engineCall hcarried hcall
    rcases hcase with hsame | ⟨tuple, htuple, happend⟩
    · show fieldValue (about Tuple.key k (logTuplesOf _)) f = _
      rw [hsame]
      rfl
    · obtain ⟨hlive, hfields⟩ := fields_of_not_carried htuple
      have habout : about Tuple.key k [tuple] = [tuple] := by
        rw [← show tuple.key = k from key_of_tuple htuple, about_cons_self, about_nil]
      show fieldValue (about Tuple.key k (logTuplesOf _)) f = _
      rw [happend, about_append, habout, fieldValue_snoc _ hlive (hfields f hf)]
      rfl

theorem leavesFields_run {s : NVMDB NVMLogEngine} {script : List (LogEnv × Op)}
    (hinv : LogInv s.recEngine) (henv : ∀ i ∈ script, i.1.Ok) :
    AllSteps (NVMDB.step NvmLog.engine) LeavesFields s script := by
  induction script generalizing s with
  | nil => trivial
  | cons i script ih =>
    obtain ⟨hinv', hleaves⟩ := leavesFields_step hinv (henv i List.mem_cons_self)
    exact ⟨hleaves, ih hinv' fun j hj => henv j (List.mem_cons_of_mem _ hj)⟩

/-! ### The three engines -/

theorem devicesWork_of_ok {ω σ : Type} {engine : RecoveryEngine ω σ} {R : TupleReading engine}
    {Ok : ω → Prop} (hR : ∀ s i, Ok i.1 → R.Works s i) {s : NVMDB σ} {script : List (ω × Op)}
    (h : ∀ i ∈ script, Ok i.1) : AllSteps (NVMDB.step engine) (DevicesWork R) s script := by
  have hall : AllSteps (NVMDB.step engine) (fun _ i => Ok i.1) s script := allSteps_const.mpr h
  exact hall.imp fun s i hok k call _ _ => hR s.recEngine (i.1, call) hok

/-- **Within a table, records are persisted apart.**  Canonical keys and names are
    accepted and have different addresses.  While the devices work, no operation of a
    run changes what is persisted about another key, on any of the three engines; and
    on the log engine no Insert or Update changes the persisted value of a field that
    it does not carry. -/
theorem addresses_apart :
    (∀ table place, CanonicalIn table place → ∃ a, address place = .returned a) ∧
    (∀ table place place', CanonicalIn table place → CanonicalIn table place' →
      place ≠ place' → address place ≠ address place') ∧
    (∀ n script, 0 < n → (∀ i ∈ script, i.1.Ok) →
      AllSteps (NVMDB.step NvmBlk.engine) (LeavesOthers blkTuples)
        ⟨∅, NVMBlkEngine.create n⟩ script) ∧
    (∀ available script, sizeofTuple ≤ available → (∀ i ∈ script, i.1.Ok) →
      AllSteps (NVMDB.step NvmLog.engine) (LeavesOthers logTuples)
        ⟨∅, NVMLogEngine.create available⟩ script ∧
      AllSteps (NVMDB.step NvmLog.engine) LeavesFields
        ⟨∅, NVMLogEngine.create available⟩ script) ∧
    (∀ capacity script, AllSteps (NVMDB.step NvRec.engine) (DevicesWork (recTuples capacity))
        ⟨∅, NVRecEngine.fresh⟩ script →
      AllSteps (NVMDB.step NvRec.engine) (LeavesOthers (recTuples capacity))
        ⟨∅, NVRecEngine.fresh⟩ script) := by
  refine ⟨?_, ?_, ?_, ?_, ?_⟩
  · rintro table place ⟨k, i, rfl⟩
    exact ⟨(k, i), address_canonical table k i⟩
  · intro table place place' h h' hne heq
    exact hne (address_inj h h' heq)
  · intro n script hn hok
    exact leavesOthers_run blkTuples ⟨blkFramed_create n, hn⟩
      (devicesWork_of_ok (fun _ _ h => h) hok)
  · intro available script havailable hok
    have hinv : LogInv (NVMLogEngine.create available) :=
      ⟨NVMLogEngine.synced_create _, havailable, [], [], NVMLogEngine.journal_create _⟩
    exact ⟨leavesOthers_run logTuples hinv (devicesWork_of_ok (fun _ _ h => h) hok),
      leavesFields_run hinv hok⟩
  · intro capacity script hworks
    exact leavesOthers_run (recTuples capacity) idle_recReading_fresh hworks

/-- Two records of two tables, one after the other. -/
def twoTables : List (LogEnv × Op) :=
  [({}, .insert (str "t") (keyName 1) [(fieldName 0, str "x")]),
    ({}, .update (str "t") (keyName 1) [(fieldName 1, str "y")]),
    ({}, .insert (str "u") (keyName 2) [(fieldName 0, str "z")])]

theorem addresses_apart_twoTables :
    AllSteps (NVMDB.step NvmLog.engine) LeavesFields ⟨∅, NVMLogEngine.create sizeofTuple⟩
      twoTables :=
  (addresses_apart.2.2.2.1 sizeofTuple twoTables (Nat.le_refl _)
    (by simp [twoTables, LogEnv.ok_default])).2

/-- **Records of two tables share an address**; so do keys that `std::stoul` reads
    alike, and names that differ in the five bytes that are not looked at. -/
theorem not_addresses_apart :
    ¬(∀ place place' : Str × Str × Str, place ≠ place' → ∀ a a', address place = .returned a →
      address place' = .returned a' → a ≠ a') ∧
    address (str "t", str "1", str "field0") = address (str "t", str " 1", str "field0") ∧
    address (str "t", str "1", str "field0") = address (str "t", str "1", str "other0") := by
  refine ⟨?_, by decide, by decide⟩
  intro h
  exact h (str "t", str "1", str "field0") (str "u", str "1", str "field0") (by decide)
    (1, ⟨0, by decide⟩) (1, ⟨0, by decide⟩) (by decide) (by decide) rfl

end NvrecYcsb.RecordAddress
