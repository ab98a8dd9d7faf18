/-
  NvrecYcsb/NvmDbCrash.lean
  =========================
  **NVMDB over the log engine when the power fails** (`db/nvmdb.cc`,
  `recovery/nvmlog_engine.cc`).

  An operation changes the record in memory and then makes the device calls that
  persist its tuple.  A failure loses the memory.  What it leaves on the devices
  rebuilds the records as they were before the operation that was cut off, or as
  they are after it, and never anything between (`crashAtomic_throughout`).
-/
import NvrecYcsb.NvmLogCrash
import NvrecYcsb.RecordRecovery

namespace NvrecYcsb.NvmDbCrash

open CppRuntime RecoveryDefs RecoveryInterface Framing Runs PowerFailure RecordReplay NvmLog
  NvmLogCrash NvmDb RecordRecovery

/-- The log engine over devices whose power may fail. -/
def engine : RecoveryEngine LogEnv Powered := RecoveryEngine.ofStore store

/-- Whatever is left of the bytes not synced, a reader of the devices rebuilds these
    records. -/
def RebuildsAs (d : LogDevices) (rs : UInt64 → Option Fields) : Prop :=
  ∀ n, replayLog Tuple.key changeOf (fun _ => none) (d.readBack n) = rs

/-- The devices rebuild the records of the table, and wherever a failure cuts off an
    operation, the records before it or after it. -/
structure CrashAtomic (table : Str) (F : List Str) (s : NVMDB Powered) : Prop where
  quiet : RebuildsAs s.recEngine.devices (records s.tables table)
  cutOff : ∀ (env : LogEnv) (o : RecordOp) (tuple : Tuple) (image : LogDevices),
    (∀ i, WholeRecord (env.diskWrite i)) → CarriesFields F o → o.Finds s.tables table →
    o.call.tuple = .returned tuple →
    Reaches handle (s.recEngine.program env tuple) s.recEngine.devices image →
    RebuildsAs image (records s.tables table) ∨
      RebuildsAs image (records ((o.op table).tablesAfter s.tables) table)

/-- What the operations keep: the devices hold tuples that stand for the records. -/
structure CrashInv (table : Str) (F : List Str) (s : NVMDB Powered) : Prop where
  synced : NVMLogEngine.Synced s.recEngine.engine
  size : sizeofTuple ≤ s.recEngine.devices.availableBytes
  held : ∃ ts, Recoverable s.recEngine.devices ts ∧
    replayLog Tuple.key changeOf (fun _ => none) ts = records s.tables table
  within : ∀ key r, records s.tables table key = some r → ∀ name, name ∉ F → r name = none

theorem Recoverable.rebuildsAs {d : LogDevices} {ts : List Tuple} (h : Recoverable d ts) :
    RebuildsAs d (replayLog Tuple.key changeOf (fun _ => none) ts) :=
  fun n => h.recovers n Str Str changeOf _

section Step

variable {table : Str} {F : List Str} {s : NVMDB Powered} {o : RecordOp} {tuple : Tuple}
  {ts : List Tuple}

/-- One more tuple stands for the records after the operation. -/
theorem replayLog_snoc_records (ho : CarriesFields F o) (hfound : o.Finds s.tables table)
    (hwithin : ∀ key r, records s.tables table key = some r → ∀ name, name ∉ F → r name = none)
    (htuple : o.call.tuple = .returned tuple)
    (hts : replayLog Tuple.key changeOf (fun _ => none) ts = records s.tables table) :
    replayLog Tuple.key changeOf (fun _ => none) (ts ++ [tuple]) =
      records ((o.op table).tablesAfter s.tables) table := by
  have hwell := wellFormed_of_carriesFields ho
  obtain ⟨tuple', htuple', hkey, hchange⟩ := exists_tuple hwell
  obtain rfl : tuple' = tuple := by
    rw [htuple] at htuple'
    exact (Outcome.returned.inj htuple').symm
  funext key
  rw [records_after s.tables table hwell, replayLog_snoc, hts, hkey, hchange]
  by_cases hk : key = o.key
  · subst hk
    rw [if_pos rfl, Function.update_self, apply_inLog ho hfound (hwithin o.key)]
  · rw [if_neg hk, Function.update_of_ne hk]

theorem crashInv_tableStep (h : CrashInv table F s) {env : LogEnv} (henv : env.Ok)
    (ho : CarriesFields F o) : CrashInv table F (tableStep engine table s (env, o)) := by
  by_cases hfound : o.Finds s.tables table
  · have hwell := wellFormed_of_carriesFields ho
    obtain ⟨tuple, htuple, -, -⟩ := exists_tuple hwell
    obtain ⟨ts, hrecoverable, hts⟩ := h.held
    have hwhole : ∀ i, WholeRecord (env.diskWrite i) := by
      intro i
      rw [henv.diskWrite i]
      exact wholeRecord_complete
    obtain ⟨r, d, hexec, hkept⟩ := (crashSafe_updateOnLog tuple hwhole hrecoverable
      s.recEngine.currentLength).exec
    have hstore : store env s.recEngine tuple = (r.1, ⟨r.2, d⟩) := by
      rw [store, Powered.program, hexec]
    have hrefines := store_engine env s.recEngine tuple
    have hsuccess := NVMLogEngine.updateOnLog_kSuccess h.synced h.size henv tuple
    have hsynced := NVMLogEngine.synced_updateOnLog h.synced env tuple
    have hsized := sized_updateOnLog ⟨rfl, h.synced.fits⟩ env tuple
    rw [logStore] at hrefines
    rw [← hrefines, hstore] at hsuccess hsynced hsized
    have hcall : engine.call env s.recEngine o.call = (.returned .kSuccess, ⟨r.2, d⟩) := by
      rw [engine, call_ofStore, persistTuple_of_tuple _ htuple, hstore]
      exact Prod.ext hsuccess rfl
    rw [tableStep_found engine env s table hfound, hcall]
    refine ⟨hsynced, ?_, ⟨ts ++ [tuple], ?_, ?_⟩, ?_⟩
    · have havailable : d.availableBytes = s.recEngine.devices.availableBytes := hsized.available
      show sizeofTuple ≤ d.availableBytes
      rw [havailable]
      exact h.size
    · have hacked : NVMLogEngine.ackedAfter ts tuple r.1 = ts ++ [tuple] := if_pos hsuccess
      exact hacked ▸ hkept
    · exact replayLog_snoc_records ho hfound h.within htuple hts
    · intro key r hr name hname
      rw [records_after s.tables table hwell] at hr
      split_ifs at hr with hk
      · exact within_inMemory ho (h.within key) hr hname
      · exact h.within key r hr name hname
  · rw [tableStep_missing engine env s table hfound]
    exact h

theorem crashAtomic_of_crashInv (h : CrashInv table F s) : CrashAtomic table F s := by
  obtain ⟨ts, hrecoverable, hts⟩ := h.held
  constructor
  · rw [← hts]
    exact Recoverable.rebuildsAs hrecoverable
  · intro env o tuple image hwhole ho hfound htuple hreaches
    have hcut := (crashSafe_updateOnLog tuple hwhole hrecoverable
      s.recEngine.currentLength).of_reaches hreaches
    rw [← hts, ← replayLog_snoc_records ho hfound h.within htuple hts]
    exact hcut.imp Recoverable.rebuildsAs Recoverable.rebuildsAs

end Step

theorem crashInv_create {available : Nat} (havailable : sizeofTuple ≤ available) (table : Str)
    (F : List Str) : CrashInv table F ⟨∅, Powered.create available⟩ where
  synced := NVMLogEngine.synced_create available
  size := havailable
  held := ⟨[], recoverable_create available, by funext key; rw [records_empty]; rfl⟩
  within key r h := by
    rw [records_empty] at h
    cases h

/-- **Operations are atomic under power failures.**  For every run of Inserts,
    Updates and Deletes on one table over a new log engine with room for one record,
    every Insert carrying exactly the fields `F` and every Update distinct fields of
    `F`: wherever a failure falls, between two operations or between two device
    calls of one, and whatever it leaves of the bytes not synced, replaying the disk
    log and then the log gives the records of the table before the operation that
    was cut off, or those after it. -/
theorem crashAtomic_throughout {available : Nat} (havailable : sizeofTuple ≤ available)
    (table : Str) (F : List Str) (script : List (LogEnv × RecordOp)) (hok : ∀ i ∈ script, i.1.Ok)
    (hfields : ∀ i ∈ script, CarriesFields F i.2) :
    Throughout (tableStep engine table) (CrashAtomic table F) ⟨∅, Powered.create available⟩
      script := by
  have hsteps : AllSteps (tableStep engine table) (fun _ i => i.1.Ok ∧ CarriesFields F i.2)
      ⟨∅, Powered.create available⟩ script :=
    allSteps_const.mpr fun i hi => ⟨hok i hi, hfields i hi⟩
  have hrun := throughout_of_allSteps (J := CrashInv table F)
    (fun s i h hi => crashInv_tableStep h hi.1 hi.2) (crashInv_create havailable table F) hsteps
  exact hrun.imp fun s h => crashAtomic_of_crashInv h

/-- A record inserted, updated and deleted, each operation but the first after a
    flush. -/
theorem crashAtomic_throughout_oneRecord :
    Throughout (tableStep engine (lit ['t']))
      (CrashAtomic (lit ['t']) [fieldName 0, fieldName 1]) ⟨∅, Powered.create sizeofTuple⟩
      oneRecord := by
  refine crashAtomic_throughout (Nat.le_refl _) (lit ['t']) [fieldName 0, fieldName 1] oneRecord
    ?_ ?_
  · simp [oneRecord, LogEnv.ok_default]
  · simp only [oneRecord, List.forall_mem_cons]
    refine ⟨⟨carries_of_decide (by decide) (by decide), ?_⟩,
      ⟨carries_of_decide (by decide) (by decide), ?_⟩, trivial, List.forall_mem_nil _⟩
    · simp
    · simp

end NvrecYcsb.NvmDbCrash
