/-
  NvrecYcsb/NvmBlkDurability.lean
  ===============================
  **When the block engine keeps what it acknowledged.**

  Two ways to lose an acknowledged tuple, each with the exact point at which it
  happens:

  * across a reopen, the blocks keep their tuples but the allocator starts again
    at block 0, so a new key may take a block that still holds the only copy of
    another key's tuple (`reopen_safe_iff`);
  * during a flush, the results of the writes are ignored, so the table is
    forgotten also when a tuple did not reach the disk log (`kept_of_writes`).
-/
import NvrecYcsb.NvmBlk

namespace NvrecYcsb.NvmBlkDurability

open CppRuntime RecoveryDefs RecoveryInterface Framing KeyedLog Runs NvmBlk NVMBlkEngine

abbrev blkStore (env : BlkEnv) (s : NVMBlkEngine) (tuple : Tuple) :
    Outcome RecoveryStatus × NVMBlkEngine := s.updateTuple env tuple

def lastAcked (s : Session NVMBlkEngine) (k : UInt64) : Option Tuple :=
  lastFor Tuple.key k s.acked

theorem lastAcked_success (s : Session NVMBlkEngine) (tuple : Tuple) (e : NVMBlkEngine)
    (k : UInt64) :
    lastAcked (s.record tuple (.returned .kSuccess, e)) k =
      if tuple.key = k then some tuple else lastAcked s k := by
  rw [lastAcked, Session.record_acked_success, lastFor_append, lastFor_singleton]
  by_cases h : tuple.key = k <;> simp [h, lastAcked]

theorem lastAcked_of_ne (s : Session NVMBlkEngine) (tuple : Tuple)
    {r : Outcome RecoveryStatus × NVMBlkEngine} (h : r.1 ≠ .returned .kSuccess) (k : UInt64) :
    lastAcked (s.record tuple r) k = lastAcked s k := by
  rw [lastAcked, Session.record_acked_of_ne s tuple h, lastAcked]

/-- What holds of an acknowledged tuple, and of the last tuples of the other keys
    before it, holds of the last tuple of every key. -/
theorem forall_lastAcked_success {s : Session NVMBlkEngine} {tuple : Tuple} {e : NVMBlkEngine}
    {P : UInt64 → Tuple → Prop} (hself : P tuple.key tuple)
    (hother : ∀ k t, tuple.key ≠ k → lastAcked s k = some t → P k t) :
    ∀ k t, lastAcked (s.record tuple (.returned .kSuccess, e)) k = some t → P k t := by
  intro k t ht
  rw [lastAcked_success] at ht
  by_cases hk : tuple.key = k
  · rw [if_pos hk] at ht
    obtain rfl := Option.some.inj ht
    exact hk ▸ hself
  · rw [if_neg hk] at ht
    exact hother k t hk ht

theorem key_of_lastAcked {s : Session NVMBlkEngine} {k : UInt64} {t : Tuple}
    (h : lastAcked s k = some t) : t.key = k := key_of_lastFor h

/-! ### Across a reopen -/

def reopenStep (s : Session NVMBlkEngine) (op : Session.Op BlkEnv) : Session NVMBlkEngine :=
  s.step blkStore NVMBlkEngine.reopen op

def Op.Ok : Session.Op BlkEnv → Prop
  | .call env _ => env.Ok
  | .restart => True

/-- The last acknowledged tuple of every key is in a block or in the disk log. -/
def Safe (s : Session NVMBlkEngine) : Prop :=
  ∀ k t, lastAcked s k = some t →
    (∃ b, b < s.engine.maxNumBlocks ∧ s.engine.blkPool b = t) ∨
      t ∈ tupleCode.readAll s.engine.diskLog

/-- What block `next_block_` holds may be overwritten by `tuple`: it is not the
    last acknowledged tuple of its key, or `tuple` is about that key, or there
    is another copy. -/
def Reusable (s : Session NVMBlkEngine) (tuple : Tuple) : Prop :=
  let stale := s.engine.blkPool s.engine.nextBlock
  lastAcked s stale.key = some stale → stale.key = tuple.key ∨
    (∃ b, b < s.engine.maxNumBlocks ∧ b ≠ s.engine.nextBlock ∧ s.engine.blkPool b = stale) ∨
      stale ∈ tupleCode.readAll s.engine.diskLog

/-- A call that takes a new block without flushing takes a reusable one. -/
def TakesReusable (s : Session NVMBlkEngine) : Session.Op BlkEnv → Prop
  | .call _ c => ∀ tuple, c.tuple = .returned tuple →
      s.engine.lookupTable tuple.key = none → s.engine.nextBlock < s.engine.maxNumBlocks →
      Reusable s tuple
  | .restart => True

/-- The engine's invariant, and a disk log made of whole frames. -/
structure ReopenInv (s : Session NVMBlkEngine) : Prop where
  table : Inv s.engine
  framed : ∃ ts, s.engine.diskLog = tupleCode.writeAll ts

theorem safe_overwritten {s : Session NVMBlkEngine} (hinv : Inv s.engine) {tuple : Tuple}
    {b : Nat} (hb : s.engine.lookupTable tuple.key = some b)
    (hlt : b < s.engine.maxNumBlocks) (hs : Safe s) :
    Safe (s.record tuple (.returned .kSuccess, s.engine.overwriteBlk b tuple)) := by
  refine forall_lastAcked_success (Or.inl ⟨b, hlt, Function.update_self ..⟩) fun k t hk ht => ?_
  rcases hs k t ht with ⟨c, hc, rfl⟩ | hdisk
  · -- another key's tuple is not in the block of `tuple.key`
    have hcb : c ≠ b := by
      rintro rfl
      exact hk ((hinv.holds _ _ hb).symm.trans (key_of_lastAcked ht))
    exact Or.inl ⟨c, hc, Function.update_of_ne hcb ..⟩
  · exact Or.inr hdisk

theorem safe_appended_iff {s : Session NVMBlkEngine} {tuple : Tuple}
    (hlt : s.engine.nextBlock < s.engine.maxNumBlocks) (hs : Safe s) :
    Safe (s.record tuple (.returned .kSuccess, s.engine.appendBlk tuple)) ↔
      Reusable s tuple := by
  constructor
  · intro hsafe hlast
    by_cases hk : tuple.key = (s.engine.blkPool s.engine.nextBlock).key
    · exact Or.inl hk.symm
    right
    have hkept := hsafe _ (s.engine.blkPool s.engine.nextBlock) (by
      rw [lastAcked_success, if_neg hk]
      exact hlast)
    rcases hkept with ⟨c, hc, hpool⟩ | hdisk
    · change Function.update s.engine.blkPool s.engine.nextBlock tuple c = _ at hpool
      by_cases hcn : c = s.engine.nextBlock
      · subst hcn
        rw [Function.update_self] at hpool
        exact absurd (congrArg Tuple.key hpool) hk
      · rw [Function.update_of_ne hcn] at hpool
        exact Or.inl ⟨c, hc, hcn, hpool⟩
    · exact Or.inr hdisk
  · intro hreuse
    refine forall_lastAcked_success
      (Or.inl ⟨_, hlt, blkPool_appendBlk_self s.engine tuple⟩) fun k t hk ht => ?_
    have hkey := key_of_lastAcked ht
    rcases hs k t ht with ⟨c, hc, hpool⟩ | hdisk
    · by_cases hcn : c = s.engine.nextBlock
      · subst hcn
        subst hpool
        rcases hreuse (hkey ▸ ht) with heq | ⟨d, hd, hdn, hdpool⟩ | hdisk
        · exact absurd (heq.symm.trans hkey) hk
        · exact Or.inl ⟨d, hd, (Function.update_of_ne hdn ..).trans hdpool⟩
        · exact Or.inr hdisk
      · exact Or.inl ⟨c, hc, (Function.update_of_ne hcn ..).trans hpool⟩
    · exact Or.inr hdisk

theorem safe_flushedAppended {s : Session NVMBlkEngine} {tuple : Tuple} {ts : List Tuple}
    (hts : s.engine.diskLog = tupleCode.writeAll ts) (hpos : 0 < s.engine.maxNumBlocks)
    (hs : Safe s) :
    Safe (s.record tuple (.returned .kSuccess,
      (s.engine.flushed (s.engine.diskLog ++ tupleCode.writeAll
        ((List.range s.engine.maxNumBlocks).map s.engine.blkPool))).appendBlk tuple)) := by
  refine forall_lastAcked_success (Or.inl ⟨0, hpos, blkPool_appendBlk_self _ tuple⟩)
    fun k t _ ht => Or.inr ?_
  show t ∈ tupleCode.readAll (s.engine.diskLog ++ _)
  rw [hts, ← FixedCode.writeAll_append, FixedCode.readAll_writeAll, List.mem_append]
  rcases hs k t ht with ⟨c, hc, hpool⟩ | hdisk
  · exact Or.inr (List.mem_map.mpr ⟨c, List.mem_range.mpr hc, hpool⟩)
  · rw [hts, FixedCode.readAll_writeAll] at hdisk
    exact Or.inl hdisk

theorem reopenInv_step (s : Session NVMBlkEngine) (op : Session.Op BlkEnv)
    (hs : ReopenInv s) (hop : Op.Ok op) : ReopenInv (reopenStep s op) := by
  cases op with
  | restart => exact ⟨inv_reopen _, hs.framed⟩
  | call env c =>
    refine Session.call_induction blkStore hs fun tuple _ => ⟨inv_updateTuple hs.table env tuple, ?_⟩
    obtain ⟨ts, hts⟩ := hs.framed
    rw [Session.record_engine]
    have hcases : Stored env s.engine tuple (blkStore env s.engine tuple) := stored_cases ..
    generalize blkStore env s.engine tuple = r at hcases ⊢
    cases hcases with
    | overwritten b _ _ => exact ⟨ts, hts⟩
    | appended _ _ _ => exact ⟨ts, hts⟩
    | refused _ => exact ⟨ts, hts⟩
    | flushedAppended disk _ _ _ hflush _ | flushedRefused disk _ _ _ hflush _ =>
      have hdisk := flushBlocks_complete (BlkEnv.Ok.diskWrite hop) hflush
      rw [hts, ← FixedCode.writeAll_append] at hdisk
      exact ⟨_, hdisk⟩
    | flushThrew e disk _ _ hfailed _ => exact absurd hfailed (BlkEnv.Ok.not_failed hop)

/-- **One operation keeps the acknowledged tuples exactly when it takes a
    reusable block.** -/
theorem safe_reopenStep_iff (s : Session NVMBlkEngine) (op : Session.Op BlkEnv)
    (hinv : ReopenInv s) (hs : Safe s) (hop : Op.Ok op) :
    Safe (reopenStep s op) ↔ TakesReusable s op := by
  cases op with
  | restart => exact ⟨fun _ => trivial, fun _ => hs⟩
  | call env c =>
    show Safe (s.call blkStore (env, c)) ↔ ∀ tuple, c.tuple = .returned tuple → _
    cases htuple : c.tuple with
    | returned tuple =>
      rw [Session.call_of_tuple blkStore s env htuple]
      have honly : (∀ t, Outcome.returned tuple = .returned t →
            s.engine.lookupTable t.key = none →
            s.engine.nextBlock < s.engine.maxNumBlocks → Reusable s t) ↔
          (s.engine.lookupTable tuple.key = none →
            s.engine.nextBlock < s.engine.maxNumBlocks → Reusable s tuple) :=
        ⟨fun h => h tuple rfl, fun h t ht => Outcome.returned.inj ht ▸ h⟩
      rw [honly]
      obtain ⟨ts, hts⟩ := hinv.framed
      have hcases : Stored env s.engine tuple (blkStore env s.engine tuple) := stored_cases ..
      generalize blkStore env s.engine tuple = r at hcases ⊢
      cases hcases with
      | overwritten b hb hlt =>
        refine iff_of_true (safe_overwritten hinv.table hb hlt hs) fun hnone => ?_
        rw [hb] at hnone
        cases hnone
      | appended hnew _ hlt =>
        rw [safe_appended_iff hlt hs]
        exact ⟨fun h _ _ => h, fun h => h hnew hlt⟩
      | refused hrefused =>
        refine iff_of_true (fun k t ht => ?_) fun hnone hlt => ?_
        · rw [lastAcked_of_ne s tuple (by simp)] at ht
          exact hs k t ht
        · -- a working device refuses only block numbers out of range
          rcases hrefused with hw | ⟨b, hb, -⟩ | ⟨-, hgt⟩
          · rw [BlkEnv.Ok.blkWrite hop] at hw
            cases hw
          · rw [hb] at hnone
            cases hnone
          · omega
      | flushedAppended disk _ hfull _ hflush hpos =>
        obtain rfl := flushBlocks_complete (BlkEnv.Ok.diskWrite hop) hflush
        exact iff_of_true (safe_flushedAppended hts hpos hs) fun _ hlt => by omega
      | flushedRefused disk _ hfull _ hflush hrefused =>
        refine iff_of_true (fun k t ht => ?_) fun _ hlt => by omega
        have hzero : s.engine.maxNumBlocks = 0 := by
          rcases hrefused with hw | hzero
          · rw [BlkEnv.Ok.blkWrite hop] at hw
            cases hw
          · exact hzero
        rw [hzero] at hflush
        obtain rfl := (Prod.mk.inj hflush).2
        rw [lastAcked_of_ne s tuple (by simp)] at ht
        exact hs k t ht
      | flushThrew e disk _ hfull hfailed hdisk =>
        exact absurd hfailed (BlkEnv.Ok.not_failed hop)
    | threw e | aborted | undefined | running =>
      rw [Session.call, htuple]
      exact iff_of_true hs fun t ht => by cases ht

def fresh (n : Nat) : Session NVMBlkEngine := ⟨create n, []⟩

/-- **What a reopened pool keeps.**  With working devices, for every history of
    calls and reopens: the last acknowledged tuple of every key stays in a block
    or in the disk log, in every state, exactly when no call takes a block that
    holds the only copy of such a tuple of another key. -/
theorem reopen_safe_iff (n : Nat) (ops : List (Session.Op BlkEnv))
    (hok : ∀ op ∈ ops, Op.Ok op) :
    Throughout reopenStep Safe (fresh n) ops ↔
      AllSteps reopenStep TakesReusable (fresh n) ops :=
  throughout_iff_allSteps (J := ReopenInv) reopenInv_step safe_reopenStep_iff
    ⟨inv_build _ _ _, [], rfl⟩ (fun _ _ h => by cases h) (allSteps_const.mpr hok)

/-- Two blocks: key 1, then a reopen, then key 2. -/
def reopenThenInsert : List (Session.Op BlkEnv) :=
  [.call {} (.delete 1), .restart, .call {} (.delete 2)]

theorem ok_reopenThenInsert : ∀ op ∈ reopenThenInsert, Op.Ok op := by
  simp [reopenThenInsert, Op.Ok, BlkEnv.ok_default]

theorem reopen_safe_iff_reopenThenInsert :
    Throughout reopenStep Safe (fresh 2) reopenThenInsert ↔
      AllSteps reopenStep TakesReusable (fresh 2) reopenThenInsert :=
  reopen_safe_iff 2 _ ok_reopenThenInsert

/-- **A reopened pool loses acknowledged data.**  All three operations succeed,
    the call for key 2 takes block 0, and the acknowledged tuple of key 1 is in
    no block and not in the disk log. -/
theorem not_safe_reopenThenInsert :
    (∀ op ∈ reopenThenInsert, Op.Ok op) ∧
      (run reopenStep (fresh 2) reopenThenInsert).acked =
        [{ deleted := true, key := 1 }, { deleted := true, key := 2 }] ∧
      ¬Safe (run reopenStep (fresh 2) reopenThenInsert) := by
  refine ⟨ok_reopenThenInsert, rfl, fun hsafe => ?_⟩
  rcases hsafe 1 { deleted := true, key := 1 } rfl with ⟨b, hb, hpool⟩ | hdisk
  · have hkey := congrArg Tuple.key hpool
    revert hkey
    match b, hb with
    | 0, _ => decide
    | 1, _ => decide
  · exact absurd hdisk (by decide)

/-! ### When the disk misbehaves -/

def callStep (s : Session NVMBlkEngine) (i : BlkEnv × PersistCall) : Session NVMBlkEngine :=
  s.call blkStore i

/-- The last acknowledged tuple of every key is in the block the table names, or
    is a whole record in the bytes of the disk log. -/
def Kept (s : Session NVMBlkEngine) : Prop :=
  ∀ k t, lastAcked s k = some t →
    (∃ b, s.engine.lookupTable k = some b ∧ s.engine.blkPool b = t) ∨
      t.bytes <:+: s.engine.diskLog

/-- A call that completes a flush writes every block completely, except blocks
    whose record the disk log already contains. -/
def FlushComplete (s : Session NVMBlkEngine) (i : BlkEnv × PersistCall) : Prop :=
  ∀ tuple, i.2.tuple = .returned tuple → s.engine.lookupTable tuple.key = none →
    s.engine.nextBlock = s.engine.maxNumBlocks → i.1.diskOpen = true →
    (∀ b, b < s.engine.maxNumBlocks → i.1.blkRead b = true) →
    ∀ b, b < s.engine.maxNumBlocks → i.1.diskWrite b = .complete ∨
      (s.engine.blkPool b).bytes <:+: s.engine.diskLog

theorem blkRead_of_flushed {env : BlkEnv} {blkPool : Nat → Tuple} {bs : List Nat}
    {disk d : List Byte} (hflush : flushBlocks env blkPool bs disk = (.returned (), d)) :
    ∀ b ∈ bs, env.blkRead b = true := by
  induction bs generalizing disk with
  | nil => intro b hb; cases hb
  | cons c bs ih =>
    obtain ⟨hread, hrest⟩ := flushBlocks_cons hflush
    exact List.forall_mem_cons.mpr ⟨hread, ih hrest⟩

theorem infix_of_flushed {s : Session NVMBlkEngine} {env : BlkEnv} {c : PersistCall}
    {tuple : Tuple} {disk : List Byte} (hinv : Inv s.engine) (hs : Kept s)
    (hcond : FlushComplete s (env, c)) (htuple : c.tuple = .returned tuple)
    (hnew : s.engine.lookupTable tuple.key = none)
    (hfull : s.engine.nextBlock = s.engine.maxNumBlocks) (hopen : env.diskOpen = true)
    (hflush : flushBlocks env s.engine.blkPool (List.range s.engine.maxNumBlocks)
      s.engine.diskLog = (.returned (), disk))
    {k : UInt64} {t : Tuple} (ht : lastAcked s k = some t) : t.bytes <:+: disk := by
  have hprefix := prefix_flushBlocks env s.engine.blkPool
    (List.range s.engine.maxNumBlocks) s.engine.diskLog
  rw [hflush] at hprefix
  rcases hs k t ht with ⟨b, hb, rfl⟩ | hdisk
  · have hlt : b < s.engine.maxNumBlocks := (hinv.range k b hb).trans_le hinv.next_le
    have hread := blkRead_of_flushed hflush
    rcases hcond tuple htuple hnew hfull hopen
      (fun c hc => hread c (List.mem_range.mpr hc)) b hlt with hcomplete | hpresent
    · exact infix_of_complete hflush (List.mem_range.mpr hlt) hcomplete
    · exact hpresent.trans hprefix.isInfix
  · exact hdisk.trans hprefix.isInfix

theorem kept_callStep (s : Session NVMBlkEngine) (i : BlkEnv × PersistCall)
    (h : Inv s.engine ∧ Kept s) (hcond : FlushComplete s i) :
    Inv (callStep s i).engine ∧ Kept (callStep s i) := by
  obtain ⟨env, c⟩ := i
  obtain ⟨hinv, hs⟩ := h
  refine Session.call_induction blkStore (P := fun s => Inv s.engine ∧ Kept s) ⟨hinv, hs⟩
    fun tuple htuple => ⟨inv_updateTuple hinv env tuple, ?_⟩
  have hcases : Stored env s.engine tuple (blkStore env s.engine tuple) := stored_cases ..
  generalize blkStore env s.engine tuple = r at hcases ⊢
  cases hcases with
  | overwritten b hb _ =>
    refine forall_lastAcked_success (Or.inl ⟨b, hb, Function.update_self ..⟩) fun k t hk ht => ?_
    rcases hs k t ht with ⟨c, hc, hpool⟩ | hdisk
    · have hcb : c ≠ b := fun heq => hk (hinv.injective hb (heq ▸ hc))
      exact Or.inl ⟨c, hc, (Function.update_of_ne hcb ..).trans hpool⟩
    · exact Or.inr hdisk
  | appended _ _ _ =>
    refine forall_lastAcked_success (Or.inl ⟨s.engine.nextBlock,
      lookupTable_appendBlk_self s.engine tuple, blkPool_appendBlk_self s.engine tuple⟩)
      fun k t hk ht => ?_
    rcases hs k t ht with ⟨c, hc, hpool⟩ | hdisk
    · have hlt := hinv.range k c hc
      exact Or.inl ⟨c, (Function.update_of_ne (Ne.symm hk) ..).trans hc,
        (Function.update_of_ne (by omega) ..).trans hpool⟩
    · exact Or.inr hdisk
  | refused _ =>
    intro k t ht
    rw [lastAcked_of_ne s tuple (by simp)] at ht
    exact hs k t ht
  | flushedAppended disk hnew hfull hopen hflush _ =>
    exact forall_lastAcked_success (Or.inl ⟨0,
      lookupTable_appendBlk_self (s.engine.flushed disk) tuple,
      blkPool_appendBlk_self (s.engine.flushed disk) tuple⟩)
      fun k t _ ht => Or.inr (infix_of_flushed hinv hs hcond htuple hnew hfull hopen hflush ht)
  | flushedRefused disk hnew hfull hopen hflush _ =>
    intro k t ht
    rw [lastAcked_of_ne s tuple (by simp)] at ht
    exact Or.inr (infix_of_flushed hinv hs hcond htuple hnew hfull hopen hflush ht)
  | flushThrew e disk _ _ _ hdisk =>
    intro k t ht
    rw [lastAcked_of_ne s tuple (by simp)] at ht
    exact (hs k t ht).imp_right fun h => h.trans hdisk.isInfix

/-- **What a misbehaving disk may cost.**  For every sequence of calls on a new
    engine and every outcome of every device operation: as long as each flush
    that completes wrote its blocks completely, or the disk log already
    contained them, the last acknowledged tuple of each key is in the block the
    table names or whole in the bytes of the disk log, in every state. -/
theorem kept_of_writes (n : Nat) (calls : List (BlkEnv × PersistCall))
    (hcond : AllSteps callStep FlushComplete (fresh n) calls) :
    Throughout callStep Kept (fresh n) calls := by
  have hfresh : Inv (fresh n).engine ∧ Kept (fresh n) :=
    ⟨inv_build _ _ _, fun _ _ h => by cases h⟩
  have hrun := throughout_of_allSteps (J := fun s => Inv s.engine ∧ Kept s)
    kept_callStep hfresh hcond
  exact hrun.imp fun _ h => h.2

theorem kept_of_writes_one_block :
    Throughout callStep Kept (fresh 1) [({}, .delete 1), ({}, .delete 2)] :=
  kept_of_writes 1 _
    ⟨fun _ _ _ _ _ _ _ _ => Or.inl rfl, fun _ _ _ _ _ _ _ _ => Or.inl rfl, trivial⟩

/-- **An ignored write error loses acknowledged data.**  One block; the write of
    the flush that the second call starts returns `-1`.  Both calls return
    `kSuccess`, and the tuple of key 1 is in no block and not on disk. -/
theorem not_kept_after_write_error :
    (run callStep (fresh 1)
        [({}, .delete 1), ({ diskWrite := fun _ => .error }, .delete 2)]).acked =
        [{ deleted := true, key := 1 }, { deleted := true, key := 2 }] ∧
      ¬Kept (run callStep (fresh 1)
        [({}, .delete 1), ({ diskWrite := fun _ => .error }, .delete 2)]) := by
  refine ⟨rfl, fun hkept => ?_⟩
  rcases hkept 1 { deleted := true, key := 1 } rfl with ⟨b, hb, -⟩ | hdisk
  · cases hb
  · exact absurd (List.infix_nil.mp hdisk) (by simp [Tuple.bytes])

end NvrecYcsb.NvmBlkDurability
