/-
  NvrecYcsb/NvRecCrash.lean
  =========================
  **The engine with asynchronous flushes when the power fails**
  (`recovery/nvrec_engine.cc`, `recovery/os_file.cc`).

  A pool keeps what its transactions committed.  The disk log keeps for certain
  what was written before the last `Sync`; of the rest a failure leaves a prefix.
  A flush thread syncs before it closes and unlinks its pool, so every record that
  is not synced still stands in a pool file (`Unsynced`).  In every state the
  records read back, from whatever is left of the disk log, then from the pool
  being flushed and the current pool, end in the last tuple committed for each key
  (`survivesFailure_of_noRestart`).
-/
import NvrecYcsb.NvRecFlushOrder
import NvrecYcsb.PowerFailure
import NvrecYcsb.Rereading

namespace NvrecYcsb.NvRec

open CppRuntime RecoveryDefs RecoveryInterface ListPool PersistentList KeyedLog NVRecEngine Runs
  Framing PowerFailure Rereading

/-- A history, and how many bytes of the disk log are synced. -/
structure PoweredHistory where
  history : History
  synced : Nat

/-- The thread is at its `Sync`. -/
def FlushPc.isSyncing : FlushPc → Bool
  | .syncing => true
  | _ => false

/-- The thread has not synced yet. -/
def FlushPc.awaitsSync : FlushPc → Bool
  | .closing | .unlinking | .finished _ => false
  | _ => true

def syncs (s : NVRecEngine) : Action → Bool
  | .tick (.flush i _) => i < s.launched && (s.flushes i).pc.isSyncing
  | _ => false

namespace PoweredHistory

def fresh : PoweredHistory := ⟨.fresh, 0⟩

def step (p : PoweredHistory) (a : Action) : PoweredHistory :=
  ⟨p.history.step a, if syncs p.history.engine a then p.history.engine.diskLog.length else p.synced⟩

/-- What a reader finds when `n` bytes of the disk log are left: the disk log, the
    pool being flushed, the current pool. -/
def readBack (p : PoweredHistory) (n : Nat) : List Tuple :=
  tupleCode.readAll (p.history.engine.diskLog.take n) ++ p.history.engine.flushingTuples ++
    p.history.engine.currentTuples

end PoweredHistory

/-! ### What is not synced -/

namespace NVRecEngine

variable {s s' : NVRecEngine} {i : Nat}

/-- The tuple is in the pool of a thread that has not synced yet. -/
def InFlight (s : NVRecEngine) (t : Tuple) : Prop :=
  ∃ i < s.launched, (s.flushes i).pc.awaitsSync = true ∧ t ∈ s.epoch i

/-- The records of the disk log after the synced ones are in flight. -/
def Unsynced (s : NVRecEngine) (synced : Nat) : Prop :=
  ∃ ds written, s.diskLog = tupleCode.writeAll (ds ++ written) ∧
    (tupleCode.writeAll ds).length ≤ synced ∧ ∀ t ∈ written, s.InFlight t

theorem not_finished_of_awaitsSync {pc : FlushPc} (h : pc.awaitsSync = true) :
    pc.isFinished = false := by
  cases pc <;> simp_all [FlushPc.awaitsSync, FlushPc.isFinished]

/-- A thread that has synced writes nothing more. -/
theorem leftOf_of_synced {pc : FlushPc} (h : pc.awaitsSync = false) (list : PersistentList) :
    leftOf list pc = [] := by
  cases pc <;> simp_all [FlushPc.awaitsSync, leftOf]

theorem eq_syncing {pc : FlushPc} (h : pc.isSyncing = true) : pc = .syncing := by
  cases pc <;> simp_all [FlushPc.isSyncing]

theorem InFlight.mem_flushingTuples (h : s.Inv) {t : Tuple} (ht : s.InFlight t) :
    t ∈ s.flushingTuples := by
  obtain ⟨i, hi, hawaits, hmem⟩ := ht
  rw [flushingTuples, handedFiles h ⟨hi, not_finished_of_awaitsSync hawaits⟩,
    List.flatMap_singleton]
  exact hmem

/-- **Nothing read back is lost or stale.**  The synced records and some of the
    others, then the pools, read as the whole disk log and the pools do. -/
theorem sameReplay_readBack (h : s.Inv) {synced : Nat} (hs : s.Unsynced synced) {n : Nat}
    (hn : synced ≤ n) :
    SameReplay Tuple.key
      (tupleCode.readAll (s.diskLog.take n) ++ s.flushingTuples ++ s.currentTuples)
      (tupleCode.readAll s.diskLog ++ s.flushingTuples ++ s.currentTuples) := by
  obtain ⟨ds, written, hdisk, hsynced, hflight⟩ := hs
  have hsubset : written ⊆ s.flushingTuples := fun t ht => (hflight t ht).mem_flushingTuples h
  have htake : s.diskLog.take n = tupleCode.writeAll ds ++
      (tupleCode.writeAll written).take (n - (tupleCode.writeAll ds).length) := by
    rw [hdisk, FixedCode.writeAll_append, List.take_append, List.take_of_length_le]
    exact hsynced.trans hn
  obtain ⟨k, hread⟩ := readAll_survives tupleCode
    (f := ⟨tupleCode.writeAll ds, tupleCode.writeAll written⟩) rfl rfl
    (n - (tupleCode.writeAll ds).length)
  have hpart : written.take k ⊆ s.flushingTuples := fun t ht => hsubset (List.mem_of_mem_take ht)
  rw [SyncedFile.survives, ← htake] at hread
  rw [hread, hdisk, FixedCode.readAll_writeAll]
  exact ((SameReplay.reread hpart ds).trans (SameReplay.reread hsubset ds).symm).append_right _

/-! ### Steps -/

/-- A step that leaves the disk log, the threads and their pools as they are; it may
    start a thread. -/
structure Undisturbed (s s' : NVRecEngine) : Prop where
  diskLog : s'.diskLog = s.diskLog
  launched : s.launched ≤ s'.launched
  flushes : ∀ i < s.launched, s'.flushes i = s.flushes i
  epoch : ∀ i < s.launched, s'.epoch i = s.epoch i

theorem Undisturbed.unsynced (h : Undisturbed s s') {synced : Nat} (hs : s.Unsynced synced) :
    s'.Unsynced synced := by
  obtain ⟨ds, written, hdisk, hsynced, hflight⟩ := hs
  refine ⟨ds, written, h.diskLog.trans hdisk, hsynced, ?_⟩
  intro t ht
  obtain ⟨i, hi, hawaits, hmem⟩ := hflight t ht
  refine ⟨i, hi.trans_le h.launched, ?_, ?_⟩
  · rw [h.flushes i hi]
    exact hawaits
  · rw [h.epoch i hi]
    exact hmem

theorem undisturbed_committed {list : PersistentList} {lookupTable : UInt64 → Option Ptr}
    (hown : s.pool ∉ s.handedPools) : Undisturbed s (s.committed list lookupTable) := by
  refine ⟨rfl, Nat.le_refl _, fun i _ => rfl, fun i hi => committed_tuplesOf_ne ?_⟩
  intro heq
  have hpool : (s.flushes i).pool = s.pool := heq
  exact hown (hpool ▸ flushes_mem_handedPools hi)

theorem undisturbed_launchFlush (value : Tuple) : Undisturbed s (s.launchFlush value) := by
  refine ⟨rfl, Nat.le_succ _, fun i hi => launchFlush_flushes_of_lt hi, fun i hi => ?_⟩
  rw [epoch, launchFlush_flushes_of_lt hi]
  rfl

theorem undisturbed_clientMoved (h : s.Inv) {commit : Option Tuple}
    (hmoved : ClientMoved s commit s') : Undisturbed s s' := by
  cases hmoved with
  | stay => exact ⟨rfl, Nat.le_refl _, fun _ _ => rfl, fun _ _ => rfl⟩
  | abort value hpc => exact ⟨rfl, Nat.le_refl _, fun _ _ => rfl, fun _ _ => rfl⟩
  | join value hpc _ => exact ⟨rfl, Nat.le_refl _, fun _ _ => rfl, fun _ _ => rfl⟩
  | insert value hpc _ =>
    exact undisturbed_committed (h.current (not_opening_of_client hpc rfl)).own
  | update value ptr hpc _ =>
    exact undisturbed_committed (h.current (not_opening_of_client hpc rfl)).own
  | launch value hpc => exact undisturbed_launchFlush value
  | next value hpc s'' hmade =>
    have hbase := SameWorld.counted s
    have hflushes := poolMade_flushes (c := .transacting value) hbase hmade
    refine ⟨?_, ?_, fun i _ => congrFun hflushes i, fun i hi => ?_⟩
    · cases hmade <;> rfl
    · exact (poolMade_launched (c := .transacting value) hbase hmade).ge
    · have hknown := h.handedKnown _ (flushes_mem_handedPools hi)
      show ((s''.started (.transacting value)).pools
        ((s''.started (.transacting value)).flushes i).pool).list.tuples = _
      rw [hflushes]
      exact congrArg PersistentList.tuples (poolMade_list hbase hmade hknown)

/-- What is not synced is in the pool of the one thread that has not finished. -/
theorem Unsynced.of_last (h : s.Inv) (hi : i < s.launched)
    (hunfinished : (s.flushes i).pc.isFinished = false) {synced : Nat} (hs : s.Unsynced synced) :
    ∃ ds written, s.diskLog = tupleCode.writeAll (ds ++ written) ∧
      (tupleCode.writeAll ds).length ≤ synced ∧ written ⊆ s.epoch i ∧
      ((s.flushes i).pc.awaitsSync = false → written = []) := by
  obtain ⟨ds, written, hdisk, hsynced, hflight⟩ := hs
  have hlast : ∀ t ∈ written, (s.flushes i).pc.awaitsSync = true ∧ t ∈ s.epoch i := by
    intro t ht
    obtain ⟨j, hj, hawaits, hmem⟩ := hflight t ht
    have hfirst := (h.pending i hi hunfinished).last
    have hsecond := (h.pending j hj (not_finished_of_awaitsSync hawaits)).last
    obtain rfl : j = i := by omega
    exact ⟨hawaits, hmem⟩
  refine ⟨ds, written, hdisk, hsynced, fun t ht => (hlast t ht).2, ?_⟩
  intro hpast
  rw [List.eq_nil_iff_forall_not_mem]
  intro t ht
  have hawaits := (hlast t ht).1
  rw [hpast] at hawaits
  cases hawaits

/-- Only the step after the loop ends the writing. -/
theorem awaitsSync_of_stepsLeft (list : PersistentList) {pc : FlushPc}
    (h : 3 ≤ stepsLeft list pc) : pc.awaitsSync = true := by
  cases pc with
  | closing => simp [stepsLeft] at h
  | unlinking => simp [stepsLeft] at h
  | finished r => simp [stepsLeft] at h
  | starting => rfl
  | reading current => rfl
  | writing p t => rfl
  | syncing => rfl

theorem stepsLeft_of_awaitsSync (h : s.Inv) (hi : i < s.launched)
    (hawaits : (s.flushes i).pc.awaitsSync = true) (hsyncing : (s.flushes i).pc.isSyncing = false) :
    4 ≤ stepsLeft (s.flushList i) (s.flushes i).pc := by
  have hon := h.onList i hi
  cases hpc : (s.flushes i).pc with
  | starting => simp [stepsLeft]
  | reading current => simp [stepsLeft]
  | writing p t =>
    rw [hpc] at hon
    obtain ⟨n, hn, -⟩ := hon
    have htuples : (s.flushList i).tuplesFrom (some p) = n.obj :: (s.flushList i).tuplesFrom n.next :=
      tuplesFrom_succ (h.lists _) hn
    rw [stepsLeft, htuples, List.length_cons]
    omega
  | syncing => simp [hpc, FlushPc.isSyncing] at hsyncing
  | closing => simp [hpc, FlushPc.awaitsSync] at hawaits
  | unlinking => simp [hpc, FlushPc.awaitsSync] at hawaits
  | finished r => simp [hpc, FlushPc.awaitsSync] at hawaits

/-- The `Sync` step keeps all of the disk log. -/
theorem unsynced_sync {synced : Nat} (hs : s.Unsynced synced) (s' : NVRecEngine)
    (hdisk : s'.diskLog = s.diskLog) : s'.Unsynced s.diskLog.length := by
  obtain ⟨ds, written, hall, -, -⟩ := hs
  refine ⟨ds ++ written, [], ?_, ?_, by simp⟩
  · rw [List.append_nil, hdisk, hall]
  · rw [hall]

theorem unsynced_flushStep (h : s.Inv) {synced : Nat} (hs : s.Unsynced synced) {env : FlushEnv}
    (hok : (Tick.flush i env).Ok) (hsyncing : syncs s (.tick (.flush i env)) = false) :
    (s.flushStep env i).Unsynced synced := by
  by_cases hrunning : i < s.launched ∧ (s.flushes i).pc.isFinished = false
  · obtain ⟨hi, hunfinished⟩ := hrunning
    have hpc : (s.flushes i).pc.isSyncing = false := by simpa [syncs, hi] using hsyncing
    obtain ⟨ds, written, hdisk, hsynced, hflight, hpast⟩ := hs.of_last h hi hunfinished
    have hadvanced := flushStep_advanced h.usable hi hunfinished hok
    generalize s.flushStep env i = s' at hadvanced ⊢
    cases hadvanced with
    | unlink hunlinking =>
      -- the thread has synced, so nothing is in flight
      obtain rfl : written = [] := hpast (by rw [hunlinking]; rfl)
      exact ⟨ds, [], hdisk, hsynced, by simp⟩
    | move pc pools diskLog new hpools _ hnext hon hwrite hleft hsteps =>
      have hepoch : (s.moveFlush i pc pools diskLog).epoch i = s.epoch i := by
        rw [epoch, moveFlush_pool, moveFlush_tuplesOf hpools, epoch]
      have hnew : new ⊆ s.epoch i := by
        intro t ht
        have hmem : t ∈ leftOf (s.flushList i) (s.flushes i).pc := by
          rw [hleft]
          exact List.mem_append_left _ ht
        exact (leftOf_suffix (h.lists _) _).subset hmem
      refine ⟨ds, written ++ new, ?_, hsynced, ?_⟩
      · show diskLog = _
        rw [hwrite, hdisk, ← List.append_assoc, FixedCode.writeAll_append _ (ds ++ written)]
      · intro t ht
        cases hawaits : (s.flushes i).pc.awaitsSync with
        | true =>
          have hfour := stepsLeft_of_awaitsSync h hi hawaits hpc
          refine ⟨i, hi, ?_, ?_⟩
          · rw [moveFlush_pc_self]
            exact awaitsSync_of_stepsLeft (s.flushList i) (by omega)
          · rw [hepoch]
            rcases List.mem_append.mp ht with ht | ht
            · exact hflight ht
            · exact hnew ht
        | false =>
          obtain rfl : written = [] := hpast hawaits
          have hnil := leftOf_of_synced hawaits (s.flushList i)
          rw [hleft] at hnil
          obtain rfl := (List.append_eq_nil_iff.mp hnil).1
          cases ht
  · rw [flushStep_of_not_unfinished env hrunning]
    exact hs

theorem diskLog_sync {env : FlushEnv} (hsyncing : syncs s (.tick (.flush i env)) = true) :
    (s.flushStep env i).diskLog = s.diskLog := by
  obtain ⟨hi, hpc⟩ : i < s.launched ∧ (s.flushes i).pc.isSyncing = true := by
    simpa [syncs] using hsyncing
  rw [flushStep, if_pos hi, flushThreadStep, eq_syncing hpc]
  rfl

end NVRecEngine

/-! ### Whole runs -/

/-- However many of the bytes that are not synced are left, what is read back ends in
    the last tuple committed for each key. -/
def SurvivesFailure (p : PoweredHistory) : Prop :=
  ∀ n, p.synced ≤ n → ∀ k,
    lastFor Tuple.key k (p.readBack n) = lastFor Tuple.key k p.history.tuples

structure PoweredInv (p : PoweredHistory) : Prop where
  session : SessionInv p.history
  unsynced : p.history.engine.Unsynced p.synced

theorem poweredInv_step {p : PoweredHistory} (hp : PoweredInv p) {a : Action} (hok : a.Ok)
    (hrestart : a ≠ .restart) : PoweredInv (p.step a) := by
  have hinv := hp.session.calls.inv
  refine ⟨sessionInv_step hp.session hok hrestart, ?_⟩
  cases a with
  | restart => exact absurd rfl hrestart
  | call value =>
    show (NvRec.step p.history.engine (.call value)).Unsynced p.synced
    rw [NvRec.step]
    split
    · exact Undisturbed.unsynced ⟨rfl, Nat.le_refl _, fun _ _ => rfl, fun _ _ => rfl⟩ hp.unsynced
    · exact hp.unsynced
  | tick t =>
    cases t with
    | client env =>
      exact (undisturbed_clientMoved hinv (clientStep_moved hinv.usable hok)).unsynced hp.unsynced
    | flush i env =>
      show (p.history.engine.flushStep env i).Unsynced (if syncs p.history.engine
        (.tick (.flush i env)) then p.history.engine.diskLog.length else p.synced)
      cases hsyncing : syncs p.history.engine (.tick (.flush i env)) with
      | true =>
        exact unsynced_sync hp.unsynced _ (diskLog_sync hsyncing)
      | false => exact unsynced_flushStep hinv hp.unsynced hok hsyncing

theorem poweredInv_fresh : PoweredInv .fresh :=
  ⟨sessionInv_fresh, [], [], rfl, Nat.zero_le _, by simp⟩

theorem survivesFailure_of_poweredInv {p : PoweredHistory} (hp : PoweredInv p) : SurvivesFailure p := by
  intro n hn k
  rw [PoweredHistory.readBack,
    (sameReplay_readBack hp.session.calls.inv hp.unsynced hn).lastFor_eq k]
  exact reads_of_sessionInv hp.session k

/-- **The asynchronous engine survives a power failure.**  For every sequence of
    calls, every interleaving of the client's steps with those of the flush
    threads, and every transaction that aborts, with working devices and no
    restart: wherever a failure falls and whatever it leaves of the bytes not
    synced, the disk log, the pool being flushed and the current pool end in the
    last tuple committed for each key. -/
theorem survivesFailure_of_noRestart (actions : List Action) (hok : ∀ a ∈ actions, a.Ok)
    (hrestart : ∀ a ∈ actions, a ≠ .restart) :
    Throughout PoweredHistory.step SurvivesFailure .fresh actions := by
  have hsteps : AllSteps PoweredHistory.step (fun _ a => a.Ok ∧ a ≠ .restart) .fresh actions :=
    allSteps_const.mpr fun a ha => ⟨hok a ha, hrestart a ha⟩
  have hrun : Throughout PoweredHistory.step PoweredInv .fresh actions :=
    throughout_of_allSteps (fun p a hp h => poweredInv_step hp h.1 h.2) poweredInv_fresh hsteps
  exact hrun.imp fun _ hp => survivesFailure_of_poweredInv hp

theorem survivesFailure_of_noRestart_overlapping :
    Throughout PoweredHistory.step SurvivesFailure .fresh overlapping :=
  survivesFailure_of_noRestart overlapping (by decide) (by simp [overlapping, soloCall, overflow])

end NvrecYcsb.NvRec
