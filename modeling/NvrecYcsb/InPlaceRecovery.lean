/-
  NvrecYcsb/InPlaceRecovery.lean
  ==============================
  **What the in-place engines lose of a record.**

  The block engine and the asynchronous engine keep one tuple a key in NVM and
  overwrite it by the next.  A tuple of an Update carries only the fields of that
  Update, so what the overwritten tuple said of the other fields is gone unless
  the disk log says the same.

  * `InPlaceEngine`: an engine whose successful calls are puts into an in-place
    store that can be read off its state; `blkInPlace` and `recInPlace` are the
    two engines as such;
  * `rebuilt_tableStep_iff`: one operation keeps the records rebuildable exactly
    under `KeepsFields`;
  * `rebuilt_iff`: the same of whole runs, for both engines.
-/
import NvrecYcsb.RecordRecovery
import NvrecYcsb.NvRecCalls

namespace NvrecYcsb.InPlaceRecovery

open CppRuntime RecoveryDefs RecoveryInterface TupleCodec NvmDb KeyedLog RecordReplay Framing Runs
  RecordRecovery
open NvmBlk (BlkEnv NVMBlkEngine)
open NvRec (NVRecEngine Tick)

/-- An engine as an in-place store.  While its devices work, a call that returns
    `kSuccess` puts its tuple. -/
structure InPlaceEngine {ω σ : Type} (engine : RecoveryEngine ω σ) where
  Inv : σ → Prop
  Works : σ → ω × PersistCall → Prop
  reading : σ → InPlace Tuple UInt64
  put : ∀ {s env call tuple}, Inv s → Works s (env, call) → call.tuple = .returned tuple →
    (engine.call env s call).1 = .returned .kSuccess →
    Inv (engine.call env s call).2 ∧
      InPlace.Put Tuple.key tuple (reading s) (reading (engine.call env s call).2)

/-! ### The engines -/

/-- The block engine: the tuples on disk, and the blocks the table names. -/
def blkReading (s : NVMBlkEngine) : InPlace Tuple UInt64 :=
  ⟨tupleCode.readAll s.diskLog, s.live⟩

/-- A block engine whose disk log holds whole tuples. -/
structure BlkFramed (s : NVMBlkEngine) : Prop where
  inv : NVMBlkEngine.Inv s
  framed : s.diskLog = tupleCode.writeAll (tupleCode.readAll s.diskLog)

theorem refines_blkReading {s : NVMBlkEngine} (h : BlkFramed s) :
    NVMBlkEngine.Refines s (blkReading s) := ⟨h.framed, rfl⟩

theorem blkReading_of_refines {s : NVMBlkEngine} {st : InPlace Tuple UInt64}
    (h : NVMBlkEngine.Refines s st) : blkReading s = st := by
  obtain ⟨durable, live⟩ := st
  obtain ⟨hdisk, hlive⟩ := h
  rw [blkReading, hdisk, FixedCode.readAll_writeAll, ← show live = s.live from hlive]

theorem blkFramed_create (n : Nat) : BlkFramed (NVMBlkEngine.create n) :=
  ⟨NVMBlkEngine.inv_build _ _ _, rfl⟩

/-- The block engine asks of its devices that the writes of a flush are complete. -/
def blkInPlace : InPlaceEngine NvmBlk.engine where
  Inv := BlkFramed
  Works _ i := ∀ b, i.1.diskWrite b = .complete
  reading := blkReading
  put {s env call tuple} hinv hwrites htuple hsuccess := by
    rw [NvmBlk.engine, call_ofStore, persistTuple_of_tuple _ htuple] at hsuccess ⊢
    obtain ⟨st', hput, hst'⟩ :=
      NVMBlkEngine.updateTuple_put hwrites hinv.inv (refines_blkReading hinv) hsuccess
    refine ⟨⟨NVMBlkEngine.inv_updateTuple hinv.inv env tuple, ?_⟩, ?_⟩
    · rw [hst'.disk, FixedCode.readAll_writeAll]
    · rw [blkReading_of_refines hst']
      exact hput

/-- The asynchronous engine: the tuples on disk and those of the pool being
    flushed that are not there yet, and the list of the current pool. -/
def recReading (s : NVRecEngine) : InPlace Tuple UInt64 :=
  ⟨tupleCode.readAll s.diskLog ++ s.remaining, fun k => lastFor Tuple.key k (s.tuplesOf s.pool)⟩

theorem recReading_of_idle {s : NVRecEngine} {st : InPlace Tuple UInt64} (h : s.Idle st) :
    recReading s = st := by
  obtain ⟨durable, live⟩ := st
  obtain ⟨ds, hdisk, hleft⟩ := h.inv.disk
  have hopening := NVRecEngine.not_opening_of_idle h
  have hdurable : durable = s.handed := h.store.durable
  have hlive : ∀ k, lastFor Tuple.key k (s.tuplesOf s.pool) = live k := fun k => by
    rw [← h.session.unflushed hopening]
    exact h.store.live.lastFor k
  rw [recReading, hdisk, FixedCode.readAll_writeAll, hleft, hdurable]
  congr
  funext k
  exact hlive k

/-- The asynchronous engine asks that its devices work on pools of `capacity`
    nodes, at every tick of the call. -/
def recInPlace (capacity : Nat) : InPlaceEngine NvRec.engine where
  Inv s := s.Idle (recReading s)
  Works s i := ∀ tuple, i.2.tuple = .returned tuple →
    AllSteps NvRec.tick (NvRec.Works capacity) (NvRec.step s (.call tuple)) i.1
  reading := recReading
  put {s schedule call tuple} hinv hworks htuple hsuccess := by
    rw [NvRec.engine, call_ofStore, persistTuple_of_tuple _ htuple] at hsuccess ⊢
    obtain ⟨s', st', hstored, hidle, hput⟩ :=
      NVRecEngine.persistRaw_put hinv tuple (hworks tuple htuple) (by rw [hsuccess]; nofun)
    rw [hstored]
    obtain rfl := recReading_of_idle hidle
    exact ⟨hidle, hput⟩

theorem idle_recReading_fresh : NVRecEngine.fresh.Idle (recReading NVRecEngine.fresh) := by
  rw [recReading_of_idle NVRecEngine.idle_fresh]
  exact NVRecEngine.idle_fresh

/-! ### One operation -/

section Operation

variable {ω σ : Type} {engine : RecoveryEngine ω σ} (I : InPlaceEngine engine) (table : Str)

/-- For every key, the persisted tuples stand for the record of the table. -/
def Rebuilt (s : NVMDB σ) : Prop :=
  ∀ key, rebuild ((I.reading s.recEngine).persisted Tuple.key key) = records s.tables table key

/-- The values are well formed, the devices work, and the operation returns `kOK`. -/
structure Accepted (s : NVMDB σ) (i : ω × RecordOp) : Prop where
  wellFormed : i.2.WellFormed
  works : I.Works s.recEngine (i.1, i.2.call)
  kOK : (s.apply engine i.1 (i.2.op table)).1 = .returned kOK

/-- The fields that the durable log alone gives the record of a key. -/
def durableFields (st : InPlace Tuple UInt64) (key : UInt64) : Fields :=
  (rebuild (about Tuple.key key st.durable)).getD blank

/-- Nothing is lost or revived: an Insert carries every field the durable log has
    for its key; and what the live tuple that an Update overwrites says of a field
    not carried, the durable log says too. -/
def KeepsFields (st : InPlace Tuple UInt64) : RecordOp → Prop
  | .insert key values => ∀ name, values.lookup name = none → durableFields st key name = none
  | .update key values => ∀ old, st.live key = some old → ∀ name v, values.lookup name = none →
      fieldsOf old name = some v → durableFields st key name = some v
  | .delete _ => True

variable {I table} {s : NVMDB σ} {env : ω} {o : RecordOp}

theorem finds_of_accepted (h : Accepted I table s (env, o)) : o.Finds s.tables table := by
  by_contra hmissing
  have hkOK := h.kOK
  rw [apply_missing engine env s table hmissing] at hkOK
  exact absurd (Outcome.returned.inj hkOK) (by decide)

/-- The state after an accepted operation: the tuple has been put, and what it
    says is now on top of what is durable. -/
theorem accepted_spec (hinv : I.Inv s.recEngine) (h : Accepted I table s (env, o)) :
    I.Inv (tableStep engine table s (env, o)).recEngine ∧
      (tableStep engine table s (env, o)).tables = (o.op table).tablesAfter s.tables ∧
      ∀ key, rebuild ((I.reading (tableStep engine table s (env, o)).recEngine).persisted
          Tuple.key key) =
        if key = o.key then
          o.inLog.apply (rebuild (about Tuple.key key (I.reading s.recEngine).durable))
        else rebuild ((I.reading s.recEngine).persisted Tuple.key key) := by
  have hfound := finds_of_accepted h
  have hkOK := h.kOK
  rw [apply_found engine env s table hfound] at hkOK
  obtain ⟨tuple, htuple, hkey, hchange⟩ := exists_tuple h.wellFormed
  obtain ⟨hinv', hput⟩ := I.put hinv h.works htuple (answer_kOK hkOK)
  rw [tableStep_found engine env s table hfound]
  refine ⟨hinv', rfl, fun key => ?_⟩
  by_cases hk : key = o.key
  · rw [if_pos hk, hk, ← hkey, rebuild, replay_put_self Tuple.key changeOf hput, hchange]
    rfl
  · rw [if_neg hk, InPlace.persisted_put_ne hput (by rw [hkey]; exact hk)]

theorem rebuild_persisted (st : InPlace Tuple UInt64) (key : UInt64) :
    rebuild (st.persisted Tuple.key key) =
      match st.live key with
      | none => rebuild (about Tuple.key key st.durable)
      | some old => (changeOf old).apply (rebuild (about Tuple.key key st.durable)) := by
  rw [InPlace.persisted, rebuild, List.map_append, replay_append]
  cases st.live key <;> rfl

/-- For its own key, an operation leaves behind the record in memory exactly when
    it keeps the fields. -/
theorem inLog_eq_inMemory_iff {st : InPlace Tuple UInt64} {tables : Tables}
    (hfound : o.Finds tables table)
    (hs : rebuild (st.persisted Tuple.key o.key) = records tables table o.key) :
    o.inLog.apply (rebuild (about Tuple.key o.key st.durable)) =
        o.inMemory (records tables table o.key) ↔ KeepsFields st o := by
  cases o with
  | insert key values =>
    show some (overlay _ (durableFields st key)) = some _ ↔ _
    rw [Option.some_inj, overlay_eq_self_iff]
    rfl
  | update key values =>
    obtain ⟨r, hrecord⟩ := Option.ne_none_iff_exists'.mp hfound
    change rebuild (st.persisted Tuple.key key) = records tables table key at hs
    show some (overlay _ (durableFields st key)) =
      Option.map (overlay _) (records tables table key) ↔ _
    rw [hrecord, Option.map_some, Option.some_inj, overlay_eq_overlay_iff, KeepsFields]
    rw [hrecord, rebuild_persisted] at hs
    cases hlive : st.live key with
    | none =>
      -- the durable log is all there is
      rw [hlive] at hs
      have hlog : rebuild (about Tuple.key key st.durable) = some r := hs
      have hdurable : durableFields st key = r := by rw [durableFields, hlog, Option.getD_some]
      rw [hdurable]
      exact iff_of_true (fun _ _ => rfl) nofun
    | some old =>
      rw [hlive] at hs
      change (changeOf old).apply (rebuild (about Tuple.key key st.durable)) = some r at hs
      by_cases hdeleted : old.deleted = true
      · rw [changeOf, if_pos hdeleted] at hs
        cases hs
      · rw [changeOf, if_neg hdeleted] at hs
        obtain rfl : overlay (fieldsOf old) (durableFields st key) = r := Option.some.inj hs
        constructor
        · intro h u hu name v hname hv
          obtain rfl := Option.some.inj hu
          have hfield := h name hname
          rwa [overlay, hv, Option.some_or] at hfield
        · intro h name hname
          cases hv : fieldsOf old name with
          | none => rw [overlay, hv, Option.none_or]
          | some v => rw [overlay, hv, Option.some_or, h old rfl name v hname hv]
  | delete key => exact iff_of_true rfl trivial

/-- **One operation keeps the records rebuildable exactly when it keeps the
    fields.** -/
theorem rebuilt_tableStep_iff (hinv : I.Inv s.recEngine) (hs : Rebuilt I table s)
    (h : Accepted I table s (env, o)) :
    Rebuilt I table (tableStep engine table s (env, o)) ↔
      KeepsFields (I.reading s.recEngine) o := by
  obtain ⟨-, htables, hrebuild⟩ := accepted_spec hinv h
  rw [← inLog_eq_inMemory_iff (finds_of_accepted h) (hs o.key)]
  constructor
  · intro hafter
    have hkey := hafter o.key
    rwa [hrebuild, htables, records_after s.tables table h.wellFormed, if_pos rfl, if_pos rfl]
      at hkey
  · intro heq key
    rw [hrebuild, htables, records_after s.tables table h.wellFormed]
    by_cases hk : key = o.key
    · subst hk
      rw [if_pos rfl, if_pos rfl, heq]
    · rw [if_neg hk, if_neg hk]
      exact hs key

theorem rebuilt_run_iff {script : List (ω × RecordOp)} (hinv : I.Inv s.recEngine)
    (hs : Rebuilt I table s)
    (hscript : AllSteps (tableStep engine table) (Accepted I table) s script) :
    Throughout (tableStep engine table) (Rebuilt I table) s script ↔
      AllSteps (tableStep engine table) (fun s i => KeepsFields (I.reading s.recEngine) i.2) s
        script := by
  have hinvStep : ∀ s i, I.Inv s.recEngine → Accepted I table s i →
      I.Inv (tableStep engine table s i).recEngine := fun _ _ hinv h => (accepted_spec hinv h).1
  have hstep : ∀ s i, I.Inv s.recEngine → Rebuilt I table s → Accepted I table s i →
      (Rebuilt I table (tableStep engine table s i) ↔
        KeepsFields (I.reading s.recEngine) i.2) :=
    fun _ _ hinv hs h => rebuilt_tableStep_iff hinv hs h
  exact throughout_iff_allSteps (J := fun s => I.Inv s.recEngine) hinvStep hstep hinv hs hscript

end Operation

/-! ### Whole runs -/

/-- **What the in-place engines keep.**  For every run of accepted operations on
    one table from an empty store, over a new block engine with any number of
    blocks or a new asynchronous engine on pools of any capacity and under any
    schedule: the persisted tuples of every key stand for its record in every
    state exactly when every operation keeps the fields. -/
theorem rebuilt_iff (table : Str) :
    (∀ (n : Nat) (script : List (BlkEnv × RecordOp)),
      AllSteps (tableStep NvmBlk.engine table) (Accepted blkInPlace table)
        ⟨∅, NVMBlkEngine.create n⟩ script →
      (Throughout (tableStep NvmBlk.engine table) (Rebuilt blkInPlace table)
          ⟨∅, NVMBlkEngine.create n⟩ script ↔
        AllSteps (tableStep NvmBlk.engine table)
          (fun s i => KeepsFields (blkReading s.recEngine) i.2) ⟨∅, NVMBlkEngine.create n⟩ script)) ∧
    (∀ (capacity : Nat) (script : List (List Tick × RecordOp)),
      AllSteps (tableStep NvRec.engine table) (Accepted (recInPlace capacity) table)
        ⟨∅, NVRecEngine.fresh⟩ script →
      (Throughout (tableStep NvRec.engine table) (Rebuilt (recInPlace capacity) table)
          ⟨∅, NVRecEngine.fresh⟩ script ↔
        AllSteps (tableStep NvRec.engine table)
          (fun s i => KeepsFields (recReading s.recEngine) i.2) ⟨∅, NVRecEngine.fresh⟩ script)) := by
  refine ⟨fun n script hscript => ?_, fun capacity script hscript => ?_⟩
  · refine rebuilt_run_iff (I := blkInPlace) (blkFramed_create n) (fun key => ?_) hscript
    rw [records_empty]
    rfl
  · refine rebuilt_run_iff (I := recInPlace capacity) idle_recReading_fresh (fun key => ?_) hscript
    have hreading : (recInPlace capacity).reading NVRecEngine.fresh = ⟨[], fun _ => none⟩ :=
      recReading_of_idle NVRecEngine.idle_fresh
    rw [records_empty, hreading]
    rfl

def partialUpdate : List RecordOp :=
  [.insert 1 [(fieldName 0, [97]), (fieldName 1, [98])], .update 1 [(fieldName 0, [99])]]

theorem wellFormed_partialUpdate : ∀ o ∈ partialUpdate, o.WellFormed := by
  simp only [partialUpdate, List.forall_mem_cons]
  exact ⟨carries_of_decide (by decide) (by decide), carries_of_decide (by decide) (by decide), nofun⟩

def blkScript : List (BlkEnv × RecordOp) := partialUpdate.map fun o => ({}, o)

def recScript : List (List Tick × RecordOp) := partialUpdate.map fun o => ([.client {}], o)

def blkEnd : NVMDB NVMBlkEngine :=
  run (tableStep NvmBlk.engine (lit ['t'])) ⟨∅, NVMBlkEngine.create 1⟩ blkScript

def recEnd : NVMDB NVRecEngine :=
  run (tableStep NvRec.engine (lit ['t'])) ⟨∅, NVRecEngine.fresh⟩ recScript

theorem accepted_blkScript :
    AllSteps (tableStep NvmBlk.engine (lit ['t'])) (Accepted blkInPlace (lit ['t']))
      ⟨∅, NVMBlkEngine.create 1⟩ blkScript := by
  have hwell := wellFormed_partialUpdate
  simp only [partialUpdate, List.forall_mem_cons] at hwell
  exact ⟨⟨hwell.1, fun _ => rfl, by decide +kernel⟩,
    ⟨hwell.2.1, fun _ => rfl, by decide +kernel⟩, trivial⟩

theorem works_client {capacity : Nat} {s : NVRecEngine} (hidle : s.client.isIdle = true)
    (hroom : (s.pools s.pool).list.heap.length < capacity) (tuple : Tuple) :
    AllSteps NvRec.tick (NvRec.Works capacity) (NvRec.step s (.call tuple)) [.client {}] := by
  rw [NvRec.step, if_pos hidle]
  exact ⟨⟨rfl, fun _ _ => iff_of_true rfl (Or.inr hroom)⟩, trivial⟩

theorem accepted_recScript :
    AllSteps (tableStep NvRec.engine (lit ['t'])) (Accepted (recInPlace 2) (lit ['t']))
      ⟨∅, NVRecEngine.fresh⟩ recScript := by
  have hwell := wellFormed_partialUpdate
  simp only [partialUpdate, List.forall_mem_cons] at hwell
  exact ⟨⟨hwell.1, fun tuple _ => works_client (by decide +kernel) (by decide +kernel) tuple,
      by decide +kernel⟩,
    ⟨hwell.2.1, fun tuple _ => works_client (by decide +kernel) (by decide +kernel) tuple,
      by decide +kernel⟩, trivial⟩

theorem rebuilt_iff_partialUpdate :
    (Throughout (tableStep NvmBlk.engine (lit ['t'])) (Rebuilt blkInPlace (lit ['t']))
        ⟨∅, NVMBlkEngine.create 1⟩ blkScript ↔
      AllSteps (tableStep NvmBlk.engine (lit ['t']))
        (fun s i => KeepsFields (blkReading s.recEngine) i.2) ⟨∅, NVMBlkEngine.create 1⟩
        blkScript) ∧
    (Throughout (tableStep NvRec.engine (lit ['t'])) (Rebuilt (recInPlace 2) (lit ['t']))
        ⟨∅, NVRecEngine.fresh⟩ recScript ↔
      AllSteps (tableStep NvRec.engine (lit ['t']))
        (fun s i => KeepsFields (recReading s.recEngine) i.2) ⟨∅, NVRecEngine.fresh⟩ recScript) :=
  ⟨(rebuilt_iff (lit ['t'])).1 1 blkScript accepted_blkScript,
    (rebuilt_iff (lit ['t'])).2 2 recScript accepted_recScript⟩

theorem not_rebuilt_of_field {ω σ : Type} {engine : RecoveryEngine ω σ}
    {I : InPlaceEngine engine} {table : Str} {s : NVMDB σ} {key : UInt64} {name v : Str}
    (hmemory : ((records s.tables table key).getD blank) name = some v)
    (hlost : ((rebuild ((I.reading s.recEngine).persisted Tuple.key key)).getD blank) name = none) :
    ¬Rebuilt I table s := fun h => by
  rw [h key, hmemory] at hlost
  cases hlost

/-- **A partial Update in place loses the other field.**  Both operations return
    `kOK`; the Update of field 0 overwrites the only tuple of the key, and field 1
    of the record in memory is in no persisted tuple any more. -/
theorem not_rebuilt_partialUpdate :
    AllSteps (tableStep NvmBlk.engine (lit ['t'])) (Accepted blkInPlace (lit ['t']))
        ⟨∅, NVMBlkEngine.create 1⟩ blkScript ∧ ¬Rebuilt blkInPlace (lit ['t']) blkEnd ∧
    AllSteps (tableStep NvRec.engine (lit ['t'])) (Accepted (recInPlace 2) (lit ['t']))
        ⟨∅, NVRecEngine.fresh⟩ recScript ∧ ¬Rebuilt (recInPlace 2) (lit ['t']) recEnd := by
  refine ⟨accepted_blkScript, ?_, accepted_recScript, ?_⟩
  · have hmemory : ((records blkEnd.tables (lit ['t']) 1).getD blank) (fieldName 1) =
        some [98] := by decide +kernel
    exact not_rebuilt_of_field hmemory (by decide +kernel)
  · have hmemory : ((records recEnd.tables (lit ['t']) 1).getD blank) (fieldName 1) =
        some [98] := by decide +kernel
    exact not_rebuilt_of_field hmemory (by decide +kernel)

end NvrecYcsb.InPlaceRecovery
