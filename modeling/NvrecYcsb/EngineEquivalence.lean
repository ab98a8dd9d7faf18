/-
  NvrecYcsb/EngineEquivalence.lean
  ================================
  **The three engines are observationally equal.**

  The block engine and the asynchronous engine put each tuple into an in-place
  store, the log engine appends it to a journal.  Read from the start of the disk
  log to the end of the NVM contents, all three end, for each key, in the tuple
  of the last call (`engines_agree`).
-/
import NvrecYcsb.NvmBlk
import NvrecYcsb.NvmLog
import NvrecYcsb.NvRecCalls

namespace NvrecYcsb.EngineEquivalence

open CppRuntime RecoveryDefs RecoveryInterface KeyedLog Framing Runs
open NvmBlk (BlkEnv NVMBlkEngine)
open NvmLog (LogEnv NVMLogEngine)
open NvRec (NVRecEngine Tick)

/-- Each call builds its tuple: `DBToRaw` accepts its values. -/
abbrev Builds (calls : List PersistCall) (tuples : List Tuple) : Prop :=
  List.Forall₂ (fun call tuple => call.tuple = .returned tuple) calls tuples

/-- What a sequence of calls preserves, from what one call preserves.  `R`
    relates the engine to the tuples of the calls so far. -/
theorem serve_induction {ω σ : Type} {store : ω → σ → Tuple → Outcome RecoveryStatus × σ}
    {R : σ → List Tuple → Prop} {P : σ → ω × PersistCall → Prop}
    (hstore : ∀ s history env call tuple, call.tuple = .returned tuple → R s history →
      P s (env, call) → R (store env s tuple).2 (history ++ [tuple]))
    {script : List (ω × PersistCall)} {tuples history : List Tuple} {s : σ}
    (hbuilds : Builds (script.map Prod.snd) tuples) (hs : R s history)
    (hok : AllSteps (RecoveryEngine.ofStore store).serve P s script) :
    R (run (RecoveryEngine.ofStore store).serve s script) (history ++ tuples) := by
  induction script generalizing s tuples history with
  | nil =>
    cases hbuilds
    rw [List.append_nil]
    exact hs
  | cons i script ih =>
    obtain ⟨env, call⟩ := i
    cases hbuilds with
    | @cons _ tuple _ tuples htuple hbuilds =>
      have hstep := hstore s history env call tuple htuple hs hok.1
      rw [← serve_of_tuple store htuple] at hstep
      have hrest := ih hbuilds hstep hok.2
      rwa [List.append_assoc] at hrest

/-! ### The block engine -/

/-- The last tuple of `k` in the disk log and then in the given blocks. -/
def blkLast (s : NVMBlkEngine) (blocks : List Nat) (k : UInt64) : Option Tuple :=
  lastFor Tuple.key k (tupleCode.readAll s.diskLog ++ blocks.map s.blkPool)

structure BlkFollows (s : NVMBlkEngine) (history : List Tuple) : Prop where
  inv : NVMBlkEngine.Inv s
  blocks : 0 < s.maxNumBlocks
  store : ∃ st, NVMBlkEngine.Refines s st ∧ InPlace.Follows Tuple.key st history

theorem blkLast_of_follows {s : NVMBlkEngine} {history : List Tuple} (h : BlkFollows s history)
    {blocks : List Nat} (hblocks : s.Enumerates blocks) (k : UInt64) :
    blkLast s blocks k = lastFor Tuple.key k history := by
  obtain ⟨st, hst, hfollows⟩ := h.store
  rw [blkLast, lastFor_append, (NVMBlkEngine.lists_enumerated h.inv hblocks).lastFor, hst.disk,
    FixedCode.readAll_writeAll, ← hfollows.last k, InPlace.view, hst.live]

theorem blkFollows_run {n : Nat} (hn : 0 < n) {script : List (BlkEnv × PersistCall)}
    {tuples : List Tuple} (hbuilds : Builds (script.map Prod.snd) tuples)
    (hok : ∀ i ∈ script, i.1.Ok) :
    BlkFollows (run NvmBlk.engine.serve (NVMBlkEngine.create n) script) tuples := by
  have hfresh : BlkFollows (NVMBlkEngine.create n) [] :=
    ⟨NVMBlkEngine.inv_build _ _ _, hn, _, NVMBlkEngine.refines_create n, InPlace.follows_nil⟩
  refine serve_induction (R := BlkFollows) (P := fun _ i => i.1.Ok) ?_ hbuilds hfresh
    (allSteps_const.mpr hok)
  intro s history env call tuple _ hs henv
  obtain ⟨st, hst, hfollows⟩ := hs.store
  have hsuccess := NVMBlkEngine.updateTuple_kSuccess henv hs.inv hs.blocks tuple
  obtain ⟨st', hput, hst'⟩ := NVMBlkEngine.updateTuple_put henv.diskWrite hs.inv hst hsuccess
  have hblocks : 0 < (s.updateTuple env tuple).2.maxNumBlocks := by
    rw [NVMBlkEngine.maxNumBlocks_updateTuple]
    exact hs.blocks
  exact ⟨NVMBlkEngine.inv_updateTuple hs.inv env tuple, hblocks, st', hst', hfollows.put hput⟩

/-! ### The log engine -/

/-- The last tuple of `k` in the disk log and then in the NVM log. -/
def logLast (s : NVMLogEngine) (k : UInt64) : Option Tuple :=
  lastFor Tuple.key k (tupleCode.readAll s.diskLog ++ tupleCode.readAll s.logPool)

/-- The journal of the log engine is the sequence of its calls. -/
structure LogFollows (s : NVMLogEngine) (history : List Tuple) : Prop where
  synced : NVMLogEngine.Synced s
  size : sizeofTuple ≤ s.availableBytes
  journal : ∃ ds ns, NVMLogEngine.Journal s ds ns ∧ ds ++ ns = history

theorem logLast_of_follows {s : NVMLogEngine} {history : List Tuple} (h : LogFollows s history)
    (k : UInt64) : logLast s k = lastFor Tuple.key k history := by
  obtain ⟨ds, ns, hj, rfl⟩ := h.journal
  rw [logLast, hj.disk, hj.log, FixedCode.readAll_writeAll, FixedCode.readAll_writeAll]

theorem logFollows_run {available : Nat} (havailable : sizeofTuple ≤ available)
    {script : List (LogEnv × PersistCall)} {tuples : List Tuple}
    (hbuilds : Builds (script.map Prod.snd) tuples) (hok : ∀ i ∈ script, i.1.Ok) :
    LogFollows (run NvmLog.engine.serve (NVMLogEngine.create available) script) tuples := by
  have hfresh : LogFollows (NVMLogEngine.create available) [] :=
    ⟨NVMLogEngine.synced_create _, havailable, [], [], NVMLogEngine.journal_create _, rfl⟩
  refine serve_induction (R := LogFollows) (P := fun _ i => i.1.Ok) ?_ hbuilds hfresh
    (allSteps_const.mpr hok)
  intro s history env call tuple _ hs henv
  obtain ⟨ds, ns, hj, rfl⟩ := hs.journal
  obtain ⟨s', ds', ns', hstored, hsynced, havail, hj', happend⟩ :=
    NVMLogEngine.updateOnLog_journal hs.synced hs.size henv hj tuple
  show LogFollows (s.updateOnLog env tuple).2 _
  rw [hstored]
  exact ⟨hsynced, havail ▸ hs.size, ds', ns', hj', happend⟩

/-! ### The asynchronous engine -/

/-- The last tuple of `k` in the disk log and then in the list of the current pool. -/
def recLast (s : NVRecEngine) (k : UInt64) : Option Tuple :=
  lastFor Tuple.key k (tupleCode.readAll s.diskLog ++ s.tuplesOf s.pool)

def RecFollows (s : NVRecEngine) (history : List Tuple) : Prop :=
  ∃ st, NVRecEngine.Idle s st ∧ InPlace.Follows Tuple.key st history

theorem recLast_of_follows {s : NVRecEngine} {history : List Tuple} (h : RecFollows s history)
    (hquiet : NvRec.Quiet s) (k : UInt64) : recLast s k = lastFor Tuple.key k history := by
  obtain ⟨st, hidle, hfollows⟩ := h
  have hopening := NVRecEngine.not_opening_of_idle hidle
  have hfinished : ∀ i, ¬s.Unfinished i := fun i hi => by
    have hunfinished := hi.2
    rw [hquiet.2 i hi.1] at hunfinished
    cases hunfinished
  obtain ⟨hdisk, -⟩ := NVRecEngine.disk_of_finished hidle.inv hfinished
  rw [recLast, hdisk, FixedCode.readAll_writeAll, ← hidle.session.unflushed hopening,
    lastFor_append, hidle.store.live.lastFor, ← hfollows.last k, InPlace.view, hidle.store.durable]

/-- The call works on pools of `capacity` nodes and its schedule reaches its end. -/
def RecServes (capacity : Nat) (s : NVRecEngine) (i : List Tick × PersistCall) : Prop :=
  ∀ tuple, i.2.tuple = .returned tuple →
    AllSteps NvRec.tick (NvRec.Works capacity) (NvRec.step s (.call tuple)) i.1 ∧
      (NvRec.engine.call i.1 s i.2).1 ≠ .running

theorem recFollows_serve {capacity : Nat} {s : NVRecEngine} {history : List Tuple}
    {schedule : List Tick} {call : PersistCall} {tuple : Tuple}
    (htuple : call.tuple = .returned tuple) (hs : RecFollows s history)
    (hserves : RecServes capacity s (schedule, call)) :
    RecFollows (NvRec.persistRaw schedule s tuple).2 (history ++ [tuple]) := by
  obtain ⟨st, hidle, hfollows⟩ := hs
  obtain ⟨hworks, hended⟩ := hserves tuple htuple
  rw [NvRec.engine, call_ofStore, persistTuple_of_tuple _ htuple] at hended
  obtain ⟨s', st', hstored, hidle', hput⟩ :=
    NVRecEngine.persistRaw_put hidle tuple hworks hended
  rw [hstored]
  exact ⟨st', hidle', hfollows.put hput⟩

theorem recFollows_fresh : RecFollows NVRecEngine.fresh [] :=
  ⟨_, NVRecEngine.idle_fresh, InPlace.follows_nil⟩

theorem recFollows_run {capacity : Nat} {script : List (List Tick × PersistCall)}
    {tuples : List Tuple} (hbuilds : Builds (script.map Prod.snd) tuples)
    (hserves : AllSteps NvRec.engine.serve (RecServes capacity) NVRecEngine.fresh script) :
    RecFollows (run NvRec.engine.serve NVRecEngine.fresh script) tuples :=
  serve_induction (R := RecFollows)
    (fun _ _ _ _ _ htuple hs hcall => recFollows_serve htuple hs hcall) hbuilds recFollows_fresh
    hserves

/-- A complete run of the asynchronous engine: every call ends, and at the end no
    flush is left running. -/
structure Completes (capacity : Nat) (s : NVRecEngine) (script : List (List Tick × PersistCall)) :
    Prop where
  serves : AllSteps NvRec.engine.serve (RecServes capacity) s script
  quiet : NvRec.Quiet (run NvRec.engine.serve s script)

theorem exists_completes {capacity : Nat} (hcapacity : 0 < capacity) {calls : List PersistCall}
    {tuples history : List Tuple} (hbuilds : Builds calls tuples) {s : NVRecEngine}
    (hs : RecFollows s history) (hquiet : NvRec.Quiet s) :
    ∃ script, script.map Prod.snd = calls ∧ Completes capacity s script := by
  induction hbuilds generalizing s history with
  | nil => exact ⟨[], rfl, trivial, hquiet⟩
  | @cons call tuple calls tuples htuple _ ih =>
    obtain ⟨st, hidle, hfollows⟩ := hs
    obtain ⟨schedule, hworks, hreturned, hquiet'⟩ :=
      NVRecEngine.persistRaw_returns hidle hcapacity tuple
    have hcall : NvRec.engine.call schedule s call = NvRec.persistRaw schedule s tuple := by
      rw [NvRec.engine, call_ofStore, persistTuple_of_tuple _ htuple]
    have hserves : RecServes capacity s (schedule, call) := by
      intro u hu
      obtain rfl : tuple = u := by
        rw [htuple] at hu
        exact Outcome.returned.inj hu
      refine ⟨hworks, ?_⟩
      show (NvRec.engine.call schedule s call).1 ≠ .running
      rw [hcall, hreturned]
      nofun
    have hnext := recFollows_serve htuple ⟨st, hidle, hfollows⟩ hserves
    obtain ⟨script, hscript, hcompletes⟩ := ih hnext hquiet'
    have hserve : NvRec.engine.serve s (schedule, call) =
        (NvRec.persistRaw schedule s tuple).2 := by rw [RecoveryEngine.serve, hcall]
    rw [← hserve] at hcompletes
    exact ⟨(schedule, call) :: script, by rw [List.map_cons, hscript],
      ⟨hserves, hcompletes.serves⟩, hcompletes.quiet⟩

/-! ### Agreement -/

/-- **The engines agree.**  For every sequence of calls whose tuples can be built,
    a block engine with at least one block, a log engine with room for one
    record, and an asynchronous engine with room for one node in a pool, all new
    and with working devices: the asynchronous engine has a complete run, and
    after any complete runs the last tuple of each key is for all three the tuple
    of the last call made for it. -/
theorem engines_agree {n available capacity : Nat} (hn : 1 ≤ n)
    (havailable : sizeofTuple ≤ available) (hcapacity : 1 ≤ capacity)
    {calls : List PersistCall} {tuples : List Tuple} (hbuilds : Builds calls tuples) :
    (∃ script, script.map Prod.snd = calls ∧ Completes capacity NVRecEngine.fresh script) ∧
    ∀ blkScript logScript recScript,
      blkScript.map Prod.snd = calls → (∀ i ∈ blkScript, i.1.Ok) →
      logScript.map Prod.snd = calls → (∀ i ∈ logScript, i.1.Ok) →
      recScript.map Prod.snd = calls → Completes capacity NVRecEngine.fresh recScript →
      ∀ blocks, (run NvmBlk.engine.serve (NVMBlkEngine.create n) blkScript).Enumerates blocks →
      ∀ k,
        blkLast (run NvmBlk.engine.serve (NVMBlkEngine.create n) blkScript) blocks k =
          lastFor Tuple.key k tuples ∧
        logLast (run NvmLog.engine.serve (NVMLogEngine.create available) logScript) k =
          lastFor Tuple.key k tuples ∧
        recLast (run NvRec.engine.serve NVRecEngine.fresh recScript) k =
          lastFor Tuple.key k tuples := by
  refine ⟨exists_completes hcapacity hbuilds recFollows_fresh (by decide), ?_⟩
  intro blkScript logScript recScript hblk hblkOk hlog hlogOk hrec hcompletes blocks hblocks k
  refine ⟨?_, ?_, ?_⟩
  · exact blkLast_of_follows (blkFollows_run hn (hblk ▸ hbuilds) hblkOk) hblocks k
  · exact logLast_of_follows (logFollows_run havailable (hlog ▸ hbuilds) hlogOk) k
  · exact recLast_of_follows (recFollows_run (hrec ▸ hbuilds) hcompletes.serves)
      hcompletes.quiet k

/-- Two deletes on engines with room for one tuple: the second one flushes. -/
def twoDeletes : List PersistCall := [.delete 1, .delete 2]

/-- The second call of the asynchronous engine aborts, hands its pool over, and
    the flush runs to its end. -/
def twoDeletesScript : List (List Tick × PersistCall) :=
  [([.client {}], .delete 1),
   ([.client { commits := false }] ++ List.replicate 4 (.client {}) ++
      List.replicate 7 (.flush 0 {}), .delete 2)]

theorem builds_twoDeletes :
    Builds twoDeletes [{ deleted := true, key := 1 }, { deleted := true, key := 2 }] :=
  .cons rfl (.cons rfl .nil)

theorem completes_twoDeletes : Completes 1 NVRecEngine.fresh twoDeletesScript where
  serves := by
    refine ⟨fun tuple htuple => ?_, fun tuple htuple => ?_, trivial⟩
    · obtain rfl := Outcome.returned.inj htuple
      exact ⟨by decide +kernel, by decide +kernel⟩
    · obtain rfl := Outcome.returned.inj htuple
      exact ⟨by decide +kernel, by decide +kernel⟩
  quiet := by decide +kernel

theorem enumerates_twoDeletes :
    (run NvmBlk.engine.serve (NVMBlkEngine.create 1)
      (twoDeletes.map fun call => ({}, call))).Enumerates [0] where
  nodup := by decide
  mem_iff b := by
    have htable : (run NvmBlk.engine.serve (NVMBlkEngine.create 1)
        (twoDeletes.map fun call => ({}, call))).lookupTable =
          Function.update (fun _ => none) 2 (some 0) := rfl
    rw [htable, List.mem_singleton]
    constructor
    · rintro rfl
      exact ⟨2, Function.update_self ..⟩
    · rintro ⟨k, hk⟩
      by_cases hkey : k = 2
      · rw [hkey, Function.update_self] at hk
        exact (Option.some.inj hk).symm
      · rw [Function.update_of_ne hkey] at hk
        cases hk

theorem engines_agree_twoDeletes :
    blkLast (run NvmBlk.engine.serve (NVMBlkEngine.create 1)
        (twoDeletes.map fun call => ({}, call))) [0] 1 =
      lastFor Tuple.key 1 [{ deleted := true, key := 1 }, { deleted := true, key := 2 }] ∧
    logLast (run NvmLog.engine.serve (NVMLogEngine.create sizeofTuple)
        (twoDeletes.map fun call => ({}, call))) 1 =
      lastFor Tuple.key 1 [{ deleted := true, key := 1 }, { deleted := true, key := 2 }] ∧
    recLast (run NvRec.engine.serve NVRecEngine.fresh twoDeletesScript) 1 =
      lastFor Tuple.key 1 [{ deleted := true, key := 1 }, { deleted := true, key := 2 }] :=
  (engines_agree (Nat.le_refl 1) (Nat.le_refl _) (Nat.le_refl 1) builds_twoDeletes).2
    _ _ _ (by simp [twoDeletes]) (by simp [twoDeletes, BlkEnv.ok_default])
    (by simp [twoDeletes]) (by simp [twoDeletes, LogEnv.ok_default]) rfl completes_twoDeletes
    _ enumerates_twoDeletes 1

end NvrecYcsb.EngineEquivalence
