/-
  NvrecYcsb/NvmBlkFailures.lean
  =============================
  **The block table when the NVM fails** (`recovery/nvmblk_engine.cc`).

  A block write may be refused and a block read may fail in the middle of a
  flush.  The table forgets its keys only when a flush has run to its end, so a
  session remembers here the tuples acknowledged since the last flush that did
  (`epochCall`); the write that follows such a flush may still be refused.

  * `updateTuple_of_flushCompletes`: a store whose flush completes;
  * `contents_epochCall`: the table names exactly what was acknowledged since;
  * `tableKept_throughout`: the invariant over all runs, failures included.
-/
import NvrecYcsb.NvmBlkDurability

namespace NvrecYcsb.NvmBlkFailures

open CppRuntime RecoveryDefs RecoveryInterface Runs NvmBlk NVMBlkEngine
open NvmBlkDurability (blkStore lastAcked lastAcked_success lastAcked_of_ne)

/-- The store flushes, and the flush runs to its end. -/
def FlushCompletes (env : BlkEnv) (s : NVMBlkEngine) (tuple : Tuple) : Prop :=
  s.lookupTable tuple.key = none ∧ s.nextBlock = s.maxNumBlocks ∧
    (s.flushToDisk env).1 = .returned ()

instance (env : BlkEnv) (s : NVMBlkEngine) (tuple : Tuple) :
    Decidable (FlushCompletes env s tuple) := by
  unfold FlushCompletes
  infer_instance

/-- A call of a session that keeps the tuples acknowledged since the last flush
    that completed; the call's own tuple comes after its flush. -/
def epochCall (s : Session NVMBlkEngine) (i : BlkEnv × PersistCall) : Session NVMBlkEngine :=
  match i.2.tuple with
  | .returned tuple =>
    let s' := if FlushCompletes i.1 s.engine tuple then { s with acked := [] } else s
    s'.record tuple (blkStore i.1 s.engine tuple)
  | _ => s

theorem epochCall_engine (s : Session NVMBlkEngine) (env : BlkEnv) (c : PersistCall) :
    (epochCall s (env, c)).engine = (engine.call env s.engine c).2 := by
  rw [engine, call_ofStore, persistTuple, epochCall]
  cases c.tuple <;> rfl

/-- The block table at rest: the table is a bijection from its keys onto the blocks
    below `next_block_`, and names for each key the block with the last tuple
    acknowledged since the last completed flush; and any call from here that
    throws leaves table, counter and blocks as they are. -/
structure TableKept (s : Session NVMBlkEngine) : Prop where
  next_le : s.engine.nextBlock ≤ s.engine.maxNumBlocks
  range : ∀ k b, s.engine.lookupTable k = some b → b < s.engine.nextBlock
  injective : ∀ k k' b, s.engine.lookupTable k = some b → s.engine.lookupTable k' = some b → k = k'
  onto : ∀ b, b < s.engine.nextBlock → ∃ k, s.engine.lookupTable k = some b
  contents : ∀ k, (s.engine.lookupTable k).map s.engine.blkPool = lastAcked s k
  threw : ∀ env c e, (engine.call env s.engine c).1 = .threw e →
    (engine.call env s.engine c).2.lookupTable = s.engine.lookupTable ∧
      (engine.call env s.engine c).2.nextBlock = s.engine.nextBlock ∧
      (engine.call env s.engine c).2.blkPool = s.engine.blkPool

/-! ### One store -/

section Store

variable {env : BlkEnv} {s : NVMBlkEngine} {tuple : Tuple}

theorem updateTuple_of_flushCompletes (h : FlushCompletes env s tuple) :
    ∃ disk, s.updateTuple env tuple = (s.flushed disk).writeNextBlk env tuple := by
  obtain ⟨hnew, hfull, hflush⟩ := h
  simp only [updateTuple, hnew, updateOnNewBlk, hfull, if_true]
  rw [flushToDisk] at hflush ⊢
  rcases Bool.eq_false_or_eq_true env.diskOpen with hopen | hclosed
  · rw [if_pos hopen] at hflush ⊢
    rcases flushBlocks_cases env s.blkPool (List.range s.maxNumBlocks) s.diskLog with
      ⟨d, hd⟩ | ⟨e, d, hd, -⟩
    · rw [hd]
      exact ⟨d, rfl⟩
    · rw [hd] at hflush
      cases hflush
  · rw [hclosed] at hflush
    cases hflush

/-- A flush that the inversion of a store found to have returned has completed. -/
theorem flushCompletes_of_flushed {disk : List Byte} (hnew : s.lookupTable tuple.key = none)
    (hfull : s.nextBlock = s.maxNumBlocks) (hopen : env.diskOpen = true)
    (hflush : flushBlocks env s.blkPool (List.range s.maxNumBlocks) s.diskLog =
      (.returned (), disk)) : FlushCompletes env s tuple := by
  refine ⟨hnew, hfull, ?_⟩
  rw [flushToDisk, if_pos hopen, hflush]
  rfl

/-- A call that throws left the table, the counter and the blocks alone. -/
theorem call_of_threw {c : PersistCall} {e : Exn} (h : (engine.call env s c).1 = .threw e) :
    (engine.call env s c).2.lookupTable = s.lookupTable ∧
      (engine.call env s c).2.nextBlock = s.nextBlock ∧
      (engine.call env s c).2.blkPool = s.blkPool := by
  rw [engine, call_ofStore, persistTuple] at h ⊢
  cases htuple : c.tuple with
  | returned tuple =>
    rw [htuple, andThen_returned] at h
    rw [andThen_returned]
    have hcases := stored_cases env s tuple
    generalize s.updateTuple env tuple = r at h hcases
    cases hcases with
    | overwritten _ _ _ => cases h
    | appended _ _ _ => cases h
    | refused _ => cases h
    | flushedAppended _ _ _ _ _ _ => cases h
    | flushedRefused _ _ _ _ _ _ => cases h
    | flushThrew _ _ _ _ _ _ => exact ⟨rfl, rfl, rfl⟩
  | threw e => exact ⟨rfl, rfl, rfl⟩
  | aborted => exact ⟨rfl, rfl, rfl⟩
  | undefined => exact ⟨rfl, rfl, rfl⟩
  | running => exact ⟨rfl, rfl, rfl⟩

end Store

/-! ### The contents of the table -/

/-- What the table names is what was acknowledged since the last completed flush. -/
def Contents (s : Session NVMBlkEngine) : Prop := ∀ k, s.engine.live k = lastAcked s k

theorem contents_record_success {s : Session NVMBlkEngine} (hs : Contents s) {tuple : Tuple}
    {e : NVMBlkEngine} (hlive : e.live = Function.update s.engine.live tuple.key (some tuple)) :
    Contents (s.record tuple (.returned .kSuccess, e)) := by
  intro k
  rw [lastAcked_success, Session.record_engine, hlive]
  by_cases hk : tuple.key = k
  · rw [if_pos hk, ← hk, Function.update_self]
  · rw [if_neg hk, Function.update_of_ne (Ne.symm hk), hs k]

theorem contents_record_of_ne {s : Session NVMBlkEngine} (hs : Contents s) {tuple : Tuple}
    {r : Outcome RecoveryStatus × NVMBlkEngine} (hne : r.1 ≠ .returned .kSuccess)
    (hlive : r.2.live = s.engine.live) : Contents (s.record tuple r) := by
  intro k
  rw [lastAcked_of_ne s tuple hne, Session.record_engine, hlive, hs k]

/-- After a completed flush the table and the list start again from nothing. -/
theorem contents_flushed (s : Session NVMBlkEngine) (disk : List Byte) :
    Contents ⟨s.engine.flushed disk, []⟩ := by
  intro k
  rfl

theorem contents_writeNextBlk {s : Session NVMBlkEngine} (hinv : Inv s.engine) (hs : Contents s)
    (env : BlkEnv) (tuple : Tuple) :
    Contents (s.record tuple (s.engine.writeNextBlk env tuple)) := by
  rw [writeNextBlk_eq]
  by_cases h : env.blkWrite = true ∧ s.engine.nextBlock < s.engine.maxNumBlocks
  · rw [if_pos h]
    exact contents_record_success hs (live_appendBlk hinv)
  · rw [if_neg h]
    exact contents_record_of_ne hs (by simp) rfl

theorem contents_epochCall {s : Session NVMBlkEngine} (hinv : Inv s.engine) (hs : Contents s)
    (env : BlkEnv) (c : PersistCall) : Contents (epochCall s (env, c)) := by
  rw [epochCall]
  cases c.tuple with
  | returned tuple =>
    by_cases hflush : FlushCompletes env s.engine tuple
    · obtain ⟨disk, hstore⟩ := updateTuple_of_flushCompletes hflush
      simp only [if_pos hflush, hstore]
      exact contents_writeNextBlk (s := ⟨s.engine.flushed disk, []⟩)
        (inv_flushed s.engine disk) (contents_flushed s disk) env tuple
    · simp only [if_neg hflush]
      have hcases : Stored env s.engine tuple (blkStore env s.engine tuple) := stored_cases ..
      generalize blkStore env s.engine tuple = r at hcases ⊢
      cases hcases with
      | overwritten b hb _ => exact contents_record_success hs (live_overwriteBlk hinv hb)
      | appended _ _ _ => exact contents_record_success hs (live_appendBlk hinv)
      | refused _ => exact contents_record_of_ne hs (by simp) rfl
      | flushedAppended disk hnew hfull hopen hreturned _ =>
        exact absurd (flushCompletes_of_flushed hnew hfull hopen hreturned) hflush
      | flushedRefused disk hnew hfull hopen hreturned _ =>
        exact absurd (flushCompletes_of_flushed hnew hfull hopen hreturned) hflush
      | flushThrew e disk _ _ _ _ => exact contents_record_of_ne hs (by simp) rfl
  | threw e => exact hs
  | aborted => exact hs
  | undefined => exact hs
  | running => exact hs

/-! ### Runs -/

theorem inv_epochCall {s : Session NVMBlkEngine} (h : Inv s.engine) (env : BlkEnv)
    (c : PersistCall) : Inv (epochCall s (env, c)).engine := by
  rw [epochCall_engine, engine, call_ofStore, persistTuple]
  cases c.tuple with
  | returned tuple => exact inv_updateTuple h env tuple
  | threw e => exact h
  | aborted => exact h
  | undefined => exact h
  | running => exact h

theorem tableKept_of_contents {s : Session NVMBlkEngine} (hinv : Inv s.engine)
    (hs : Contents s) : TableKept s where
  next_le := hinv.next_le
  range := hinv.range
  injective _ _ _ hk hk' := hinv.injective hk hk'
  onto := hinv.onto
  contents := hs
  threw _ _ _ h := call_of_threw h

/-- **The block table invariant holds under NVM failures.**  For a pool of any
    number of blocks with any contents, every sequence of calls and every outcome
    of every device operation: in every state the table is a bijection onto the
    blocks taken, each block named has the last tuple acknowledged for its key
    since the last completed flush, and no call that throws has changed any of it. -/
theorem tableKept_throughout (n : Nat) (blkPool : Nat → Tuple) (disk : List Byte)
    (calls : List (BlkEnv × PersistCall)) :
    Throughout epochCall TableKept ⟨build n blkPool disk, []⟩ calls := by
  have hrun : Throughout epochCall (fun s => Inv s.engine ∧ Contents s)
      ⟨build n blkPool disk, []⟩ calls := by
    apply throughout_of_allSteps (P := fun _ _ => True)
    · rintro s ⟨env, c⟩ ⟨hinv, hs⟩ -
      exact ⟨inv_epochCall hinv env c, contents_epochCall hinv hs env c⟩
    · exact ⟨inv_build n blkPool disk, fun _ => rfl⟩
    · exact allSteps_const.mpr fun _ _ => trivial
  exact hrun.imp fun _ h => tableKept_of_contents h.1 h.2

end NvrecYcsb.NvmBlkFailures
