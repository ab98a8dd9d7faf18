/-
  NvrecYcsb/NvmBlk.lean
  =====================
  **The block engine** (`recovery/nvmblk_engine.{h,cc}`).

  Tuples live in the blocks of a pmemblk pool, one block a key, found through
  `lookup_table_`.  A tuple of a key in the table overwrites that key's block;
  any other tuple takes block `next_block_`, after a flush when there is none
  left.  A flush copies every block of the pool to the disk log, whatever
  `write()` says, and forgets the table.

  Of libpmemblk: `pmemblk_write` writes its block as a whole or, when it fails,
  not at all; `pmemblk_read` gives what was last written, and zeros where nothing
  was; a number from `pmemblk_nblock` on is refused.

  `stored_cases` says once what a store can do, failures included.  The block
  table invariant (`inv_updateTuple`) follows from it, and with complete writes
  the refinement of the abstract in-place store (`updateTuple_put`).
-/
import NvrecYcsb.RecoveryInterface
import NvrecYcsb.KeyedLog
import NvrecYcsb.Runs

namespace NvrecYcsb.NvmBlk

open CppRuntime RecoveryDefs RecoveryInterface Framing KeyedLog

/-- How the device operations of one call turn out. -/
structure BlkEnv where
  blkWrite : Bool := true                            -- pmemblk_write
  blkRead : Nat → Bool := fun _ => true              -- pmemblk_read, by block
  diskOpen : Bool := true                            -- open() of the disk log
  diskWrite : Nat → WriteOutcome := fun _ => .complete -- write(), by block

structure BlkEnv.Ok (env : BlkEnv) : Prop where
  blkWrite : env.blkWrite = true
  blkRead : ∀ b, env.blkRead b = true
  diskOpen : env.diskOpen = true
  diskWrite : ∀ b, env.diskWrite b = .complete

theorem BlkEnv.ok_default : ({} : BlkEnv).Ok := ⟨rfl, fun _ => rfl, rfl, fun _ => rfl⟩

/-- What makes a flush throw does not happen on working devices. -/
theorem BlkEnv.Ok.not_failed {env : BlkEnv} (h : env.Ok) :
    ¬(env.diskOpen = false ∨ ∃ b, env.blkRead b = false) := by
  rintro (hopen | ⟨b, hread⟩)
  · rw [h.diskOpen] at hopen
    cases hopen
  · rw [h.blkRead b] at hread
    cases hread

/-- The members of `NVMBlkEngine`, the blocks of its pool and the disk log. -/
structure NVMBlkEngine where
  lookupTable : UInt64 → Option Nat
  maxNumBlocks : Nat
  nextBlock : Nat
  blkPool : Nat → Tuple
  diskLog : List Byte

namespace NVMBlkEngine

/-- The members after construction over a pool of `maxNumBlocks` blocks. -/
def build (maxNumBlocks : Nat) (blkPool : Nat → Tuple) (diskLog : List Byte) :
    NVMBlkEngine :=
  { lookupTable := fun _ => none, maxNumBlocks, nextBlock := 0, blkPool, diskLog }

/-- `BuildEngine` when `pmemblk_create` succeeds: a zeroed pool, no disk log. -/
def create (maxNumBlocks : Nat) : NVMBlkEngine := build maxNumBlocks (fun _ => {}) []

/-- Destruction, then `BuildEngine` when the pool file exists: `pmemblk_open`. -/
def reopen (s : NVMBlkEngine) : NVMBlkEngine := build s.maxNumBlocks s.blkPool s.diskLog

/-- `pmemblk_write`, which also refuses a block number out of range. -/
def pmemblkWrite (env : BlkEnv) (s : NVMBlkEngine) (tuple : Tuple) (blockno : Nat) :
    Option NVMBlkEngine :=
  if env.blkWrite = true ∧ blockno < s.maxNumBlocks then
    some { s with blkPool := Function.update s.blkPool blockno tuple }
  else none

/-- The loop of `FlushToDisk`: the result of `osf.Write` is not looked at. -/
def flushBlocks (env : BlkEnv) (blkPool : Nat → Tuple) :
    List Nat → List Byte → Outcome Unit × List Byte
  | [], disk => (.returned (), disk)
  | b :: bs, disk =>
    if env.blkRead b then
      flushBlocks env blkPool bs (osWrite (env.diskWrite b) (blkPool b).bytes disk).2
    else (.threw (.runtimeError "Disk flush failed"), disk)

/-- `FlushToDisk`.  `OSFile::Sync`, which ends without the return its type asks for,
    is taken to come back, as it does in a build that does not optimise; its value
    is not used. -/
def flushToDisk (env : BlkEnv) (s : NVMBlkEngine) : Outcome Unit × NVMBlkEngine :=
  if env.diskOpen then
    andThen
      (match flushBlocks env s.blkPool (List.range s.maxNumBlocks) s.diskLog with
        | (out, disk) => (out, { s with diskLog := disk }))
      fun _ s => (.returned (), { s with lookupTable := fun _ => none, nextBlock := 0 })
  else (.threw (.runtimeError "File Open Failed"), s)

/-- `UpdateOnNewBlk`, after its check for room. -/
def writeNextBlk (env : BlkEnv) (s : NVMBlkEngine) (tuple : Tuple) :
    Outcome RecoveryStatus × NVMBlkEngine :=
  match s.pmemblkWrite env tuple s.nextBlock with
  | none => (.returned .kFail, s)
  | some s' => (.returned .kSuccess,
      { s' with
        lookupTable := Function.update s'.lookupTable tuple.key (some s'.nextBlock)
        nextBlock := s'.nextBlock + 1 })

def updateOnNewBlk (env : BlkEnv) (s : NVMBlkEngine) (tuple : Tuple) :
    Outcome RecoveryStatus × NVMBlkEngine :=
  if s.nextBlock = s.maxNumBlocks then
    andThen (s.flushToDisk env) fun _ s => s.writeNextBlk env tuple
  else s.writeNextBlk env tuple

def updateOnBlkPosition (env : BlkEnv) (s : NVMBlkEngine) (tuple : Tuple) (position : Nat) :
    Outcome RecoveryStatus × NVMBlkEngine :=
  match s.pmemblkWrite env tuple position with
  | none => (.returned .kFail, s)
  | some s' => (.returned .kSuccess, s')

def updateTuple (env : BlkEnv) (s : NVMBlkEngine) (tuple : Tuple) :
    Outcome RecoveryStatus × NVMBlkEngine :=
  match s.lookupTable tuple.key with
  | some position => s.updateOnBlkPosition env tuple position
  | none => s.updateOnNewBlk env tuple

end NVMBlkEngine

open NVMBlkEngine

/-- `NVMBlkEngine` as a recovery engine: `PersistUpdate` and `PersistDelete`. -/
def engine : RecoveryEngine BlkEnv NVMBlkEngine :=
  RecoveryEngine.ofStore fun env s tuple => s.updateTuple env tuple

/-! ### What a store can do -/

namespace NVMBlkEngine

variable {env : BlkEnv} {s : NVMBlkEngine} {tuple : Tuple}

def overwriteBlk (s : NVMBlkEngine) (b : Nat) (tuple : Tuple) : NVMBlkEngine :=
  { s with blkPool := Function.update s.blkPool b tuple }

/-- The tuple written to block `next_block_` and entered in the table. -/
def appendBlk (s : NVMBlkEngine) (tuple : Tuple) : NVMBlkEngine :=
  { s with
    lookupTable := Function.update s.lookupTable tuple.key (some s.nextBlock)
    nextBlock := s.nextBlock + 1
    blkPool := Function.update s.blkPool s.nextBlock tuple }

def flushed (s : NVMBlkEngine) (disk : List Byte) : NVMBlkEngine :=
  { s with lookupTable := fun _ => none, nextBlock := 0, diskLog := disk }

@[simp] theorem lookupTable_appendBlk_self (s : NVMBlkEngine) (tuple : Tuple) :
    (s.appendBlk tuple).lookupTable tuple.key = some s.nextBlock := Function.update_self ..

@[simp] theorem blkPool_appendBlk_self (s : NVMBlkEngine) (tuple : Tuple) :
    (s.appendBlk tuple).blkPool s.nextBlock = tuple := Function.update_self ..

/-- Everything a store can do: overwrite the key's block, take the next block,
    flush and take block 0, fail in the device, or throw out of the flush. -/
inductive Stored (env : BlkEnv) (s : NVMBlkEngine) (tuple : Tuple) :
    Outcome RecoveryStatus × NVMBlkEngine → Prop
  | overwritten (b : Nat) (hb : s.lookupTable tuple.key = some b) (hlt : b < s.maxNumBlocks) :
      Stored env s tuple (.returned .kSuccess, s.overwriteBlk b tuple)
  | appended (hnew : s.lookupTable tuple.key = none) (hroom : s.nextBlock ≠ s.maxNumBlocks)
      (hlt : s.nextBlock < s.maxNumBlocks) :
      Stored env s tuple (.returned .kSuccess, s.appendBlk tuple)
  | refused (hrefused : env.blkWrite = false ∨
        (∃ b, s.lookupTable tuple.key = some b ∧ s.maxNumBlocks ≤ b) ∨
        (s.lookupTable tuple.key = none ∧ s.maxNumBlocks < s.nextBlock)) :
      Stored env s tuple (.returned .kFail, s)
  | flushedAppended (disk : List Byte) (hnew : s.lookupTable tuple.key = none)
      (hfull : s.nextBlock = s.maxNumBlocks) (hopen : env.diskOpen = true)
      (hflush : flushBlocks env s.blkPool (List.range s.maxNumBlocks) s.diskLog =
        (.returned (), disk))
      (hpos : 0 < s.maxNumBlocks) :
      Stored env s tuple (.returned .kSuccess, (s.flushed disk).appendBlk tuple)
  | flushedRefused (disk : List Byte) (hnew : s.lookupTable tuple.key = none)
      (hfull : s.nextBlock = s.maxNumBlocks) (hopen : env.diskOpen = true)
      (hflush : flushBlocks env s.blkPool (List.range s.maxNumBlocks) s.diskLog =
        (.returned (), disk))
      (hrefused : env.blkWrite = false ∨ s.maxNumBlocks = 0) :
      Stored env s tuple (.returned .kFail, s.flushed disk)
  | flushThrew (e : Exn) (disk : List Byte) (hnew : s.lookupTable tuple.key = none)
      (hfull : s.nextBlock = s.maxNumBlocks)
      (hfailed : env.diskOpen = false ∨ ∃ b, env.blkRead b = false)
      (hdisk : s.diskLog <+: disk) :
      Stored env s tuple (.threw e, { s with diskLog := disk })

theorem prefix_flushBlocks (env : BlkEnv) (blkPool : Nat → Tuple) (bs : List Nat)
    (disk : List Byte) : disk <+: (flushBlocks env blkPool bs disk).2 := by
  induction bs generalizing disk with
  | nil => exact List.prefix_rfl
  | cons b bs ih =>
    rw [flushBlocks]
    split
    · exact (List.prefix_append _ _).trans (ih _)
    · exact List.prefix_rfl

theorem flushBlocks_cases (env : BlkEnv) (blkPool : Nat → Tuple) (bs : List Nat)
    (disk : List Byte) :
    (∃ d, flushBlocks env blkPool bs disk = (.returned (), d)) ∨
    (∃ e d, flushBlocks env blkPool bs disk = (.threw e, d) ∧ ∃ b, env.blkRead b = false) := by
  induction bs generalizing disk with
  | nil => exact Or.inl ⟨disk, rfl⟩
  | cons b bs ih =>
    cases hread : env.blkRead b with
    | true =>
      simp only [flushBlocks, hread, if_true]
      exact ih _
    | false =>
      refine Or.inr ⟨.runtimeError "Disk flush failed", disk, ?_, b, hread⟩
      simp [flushBlocks, hread]

theorem writeNextBlk_eq (env : BlkEnv) (s : NVMBlkEngine) (tuple : Tuple) :
    s.writeNextBlk env tuple =
      if env.blkWrite = true ∧ s.nextBlock < s.maxNumBlocks then
        (.returned .kSuccess, s.appendBlk tuple)
      else (.returned .kFail, s) := by
  rw [writeNextBlk, pmemblkWrite]
  by_cases h : env.blkWrite = true ∧ s.nextBlock < s.maxNumBlocks
  · simp only [h, and_self, if_true]
    rfl
  · simp only [h, if_false]

/-- **Inversion of a store.** -/
theorem stored_cases (env : BlkEnv) (s : NVMBlkEngine) (tuple : Tuple) :
    Stored env s tuple (s.updateTuple env tuple) := by
  rw [updateTuple]
  cases hkey : s.lookupTable tuple.key with
  | some b =>
    show Stored env s tuple (s.updateOnBlkPosition env tuple b)
    rw [updateOnBlkPosition, pmemblkWrite]
    by_cases h : env.blkWrite = true ∧ b < s.maxNumBlocks
    · simp only [h, and_self, if_true]
      exact .overwritten b hkey h.2
    · simp only [h, if_false]
      refine .refused ?_
      rcases Bool.eq_false_or_eq_true env.blkWrite with hw | hw
      · exact Or.inr (Or.inl ⟨b, hkey, Nat.le_of_not_lt fun hlt => h ⟨hw, hlt⟩⟩)
      · exact Or.inl hw
  | none =>
    show Stored env s tuple (s.updateOnNewBlk env tuple)
    rw [updateOnNewBlk]
    by_cases hfull : s.nextBlock = s.maxNumBlocks
    · rw [if_pos hfull, flushToDisk]
      rcases Bool.eq_false_or_eq_true env.diskOpen with hopen | hopen
      · rw [if_pos hopen]
        rcases flushBlocks_cases env s.blkPool (List.range s.maxNumBlocks) s.diskLog with
          ⟨d, hd⟩ | ⟨e, d, hd, hread⟩
        · rw [hd]
          show Stored env s tuple ((s.flushed d).writeNextBlk env tuple)
          rw [writeNextBlk_eq]
          by_cases h : env.blkWrite = true ∧ 0 < s.maxNumBlocks
          · rw [if_pos (show _ ∧ (s.flushed d).nextBlock < (s.flushed d).maxNumBlocks from h)]
            exact .flushedAppended d hkey hfull hopen hd h.2
          · rw [if_neg (show ¬(_ ∧ (s.flushed d).nextBlock < (s.flushed d).maxNumBlocks) from h)]
            refine .flushedRefused d hkey hfull hopen hd ?_
            rcases Bool.eq_false_or_eq_true env.blkWrite with hw | hw
            · exact Or.inr (Nat.eq_zero_of_not_pos fun hpos => h ⟨hw, hpos⟩)
            · exact Or.inl hw
        · have hprefix := prefix_flushBlocks env s.blkPool (List.range s.maxNumBlocks) s.diskLog
          rw [hd] at hprefix ⊢
          exact .flushThrew e d hkey hfull (Or.inr hread) hprefix
      · rw [if_neg (by simp [hopen])]
        exact .flushThrew _ s.diskLog hkey hfull (Or.inl hopen) List.prefix_rfl
    · rw [if_neg hfull, writeNextBlk_eq]
      by_cases h : env.blkWrite = true ∧ s.nextBlock < s.maxNumBlocks
      · rw [if_pos h]
        exact .appended hkey hfull h.2
      · rw [if_neg h]
        refine .refused ?_
        rcases Bool.eq_false_or_eq_true env.blkWrite with hw | hw
        · have hle : s.maxNumBlocks ≤ s.nextBlock := Nat.le_of_not_lt fun hlt => h ⟨hw, hlt⟩
          exact Or.inr (Or.inr ⟨hkey, by omega⟩)
        · exact Or.inl hw

/-! ### The block table -/

/-- The table is a bijection onto the blocks below `next_block_`, and each of
    these blocks holds a tuple of its key. -/
structure Inv (s : NVMBlkEngine) : Prop where
  next_le : s.nextBlock ≤ s.maxNumBlocks
  range : ∀ k b, s.lookupTable k = some b → b < s.nextBlock
  onto : ∀ b, b < s.nextBlock → ∃ k, s.lookupTable k = some b
  holds : ∀ k b, s.lookupTable k = some b → (s.blkPool b).key = k

theorem inv_build (n : Nat) (blkPool : Nat → Tuple) (disk : List Byte) :
    Inv (build n blkPool disk) where
  next_le := Nat.zero_le _
  range _ _ h := by cases h
  onto _ h := by cases h
  holds _ _ h := by cases h

theorem inv_reopen (s : NVMBlkEngine) : Inv s.reopen := inv_build _ _ _

theorem Inv.injective (h : Inv s) {k k' : UInt64} {b : Nat} (hk : s.lookupTable k = some b)
    (hk' : s.lookupTable k' = some b) : k = k' := by
  rw [← h.holds k b hk, h.holds k' b hk']

theorem inv_overwriteBlk (h : Inv s) {b : Nat} (hb : s.lookupTable tuple.key = some b) :
    Inv (s.overwriteBlk b tuple) where
  next_le := h.next_le
  range := h.range
  onto := h.onto
  holds k c hk := by
    show (Function.update s.blkPool b tuple c).key = k
    by_cases hcb : c = b
    · subst hcb
      rw [Function.update_self]
      exact h.injective hb hk
    · rw [Function.update_of_ne hcb]
      exact h.holds k c hk

theorem inv_appendBlk (h : Inv s) (hnew : s.lookupTable tuple.key = none)
    (hlt : s.nextBlock < s.maxNumBlocks) : Inv (s.appendBlk tuple) where
  next_le := hlt
  range k b hk := by
    change Function.update s.lookupTable tuple.key (some s.nextBlock) k = some b at hk
    show b < s.nextBlock + 1
    by_cases hkey : k = tuple.key
    · rw [hkey, Function.update_self] at hk
      have := Option.some.inj hk
      omega
    · rw [Function.update_of_ne hkey] at hk
      exact Nat.lt_succ_of_lt (h.range k b hk)
  onto b hb := by
    change b < s.nextBlock + 1 at hb
    show ∃ k, Function.update s.lookupTable tuple.key (some s.nextBlock) k = some b
    rcases Nat.lt_succ_iff_lt_or_eq.mp hb with hb | rfl
    · obtain ⟨k, hk⟩ := h.onto b hb
      have hkey : k ≠ tuple.key := by
        rintro rfl
        rw [hnew] at hk
        cases hk
      exact ⟨k, by rw [Function.update_of_ne hkey, hk]⟩
    · exact ⟨tuple.key, Function.update_self ..⟩
  holds k b hk := by
    change Function.update s.lookupTable tuple.key (some s.nextBlock) k = some b at hk
    show (Function.update s.blkPool s.nextBlock tuple b).key = k
    by_cases hkey : k = tuple.key
    · rw [hkey, Function.update_self] at hk
      rw [← Option.some.inj hk, Function.update_self, hkey]
    · rw [Function.update_of_ne hkey] at hk
      have hb := h.range k b hk
      rw [Function.update_of_ne (by omega)]
      exact h.holds k b hk

theorem inv_flushed (s : NVMBlkEngine) (disk : List Byte) : Inv (s.flushed disk) :=
  inv_build s.maxNumBlocks s.blkPool disk

/-- **The block table invariant**, for every device outcome of the call. -/
theorem inv_updateTuple (h : Inv s) (env : BlkEnv) (tuple : Tuple) :
    Inv (s.updateTuple env tuple).2 := by
  have hcases := stored_cases env s tuple
  generalize s.updateTuple env tuple = r at hcases
  cases hcases with
  | overwritten b hb _ => exact inv_overwriteBlk h hb
  | appended hnew _ hlt => exact inv_appendBlk h hnew hlt
  | refused _ => exact h
  | flushedAppended disk _ _ _ _ hpos => exact inv_appendBlk (inv_flushed s disk) rfl hpos
  | flushedRefused disk _ _ _ _ _ => exact inv_flushed s disk
  | flushThrew e disk _ _ _ _ => exact ⟨h.next_le, h.range, h.onto, h.holds⟩

/-! ### What a flush writes -/

/-- A flush that ends has read its first block, and ends after that one. -/
theorem flushBlocks_cons {blkPool : Nat → Tuple} {b : Nat} {bs : List Nat} {disk d : List Byte}
    (hflush : flushBlocks env blkPool (b :: bs) disk = (.returned (), d)) :
    env.blkRead b = true ∧
      flushBlocks env blkPool bs (osWrite (env.diskWrite b) (blkPool b).bytes disk).2 =
        (.returned (), d) := by
  cases hread : env.blkRead b with
  | false => simp [flushBlocks, hread] at hflush
  | true =>
    rw [flushBlocks, if_pos hread] at hflush
    exact ⟨rfl, hflush⟩

/-- With every write complete, a flush that ends writes the blocks as frames. -/
theorem flushBlocks_complete (hwrites : ∀ b, env.diskWrite b = .complete)
    {blkPool : Nat → Tuple} {bs : List Nat} {disk d : List Byte}
    (hflush : flushBlocks env blkPool bs disk = (.returned (), d)) :
    d = disk ++ tupleCode.writeAll (bs.map blkPool) := by
  induction bs generalizing disk with
  | nil =>
    rw [List.map_nil, FixedCode.writeAll_nil, List.append_nil]
    exact (Prod.mk.inj hflush).2.symm
  | cons b bs ih =>
    obtain ⟨-, hrest⟩ := flushBlocks_cons hflush
    rw [hwrites b, osWrite_complete] at hrest
    rw [ih hrest, List.map_cons, FixedCode.writeAll_cons, List.append_assoc]
    rfl

theorem infix_of_complete {blkPool : Nat → Tuple} {bs : List Nat} {disk d : List Byte}
    (hflush : flushBlocks env blkPool bs disk = (.returned (), d)) {b : Nat} (hb : b ∈ bs)
    (hcomplete : env.diskWrite b = .complete) : (blkPool b).bytes <:+: d := by
  induction bs generalizing disk with
  | nil => cases hb
  | cons c bs ih =>
    obtain ⟨-, hrest⟩ := flushBlocks_cons hflush
    rcases List.mem_cons.mp hb with rfl | hb
    · have hprefix := prefix_flushBlocks env blkPool bs
        (osWrite (env.diskWrite b) (blkPool b).bytes disk).2
      rw [hrest, hcomplete, osWrite_complete] at hprefix
      exact (List.suffix_append disk _).isInfix.trans hprefix.isInfix
    · exact ih hrest hb

/-! ### The abstract store -/

/-- The tuples the table names. -/
def live (s : NVMBlkEngine) (k : UInt64) : Option Tuple := (s.lookupTable k).map s.blkPool

/-- The engine as an in-place store: its disk log holds the frames of the
    durable tuples, and the live tuples are those the table names. -/
structure Refines (s : NVMBlkEngine) (st : InPlace Tuple UInt64) : Prop where
  disk : s.diskLog = tupleCode.writeAll st.durable
  live : st.live = s.live

/-- The blocks that the table names, each once, in any order. -/
structure Enumerates (s : NVMBlkEngine) (blocks : List Nat) : Prop where
  nodup : blocks.Nodup
  mem_iff : ∀ b, b ∈ blocks ↔ ∃ k, s.lookupTable k = some b

theorem lists_enumerated (h : Inv s) {blocks : List Nat} (hblocks : s.Enumerates blocks) :
    Lists Tuple.key s.live (blocks.map s.blkPool) := by
  refine lists_of_nodup ?_ ?_ ?_
  · -- distinct blocks hold tuples of distinct keys
    rw [List.map_map]
    refine List.Nodup.map_on ?_ hblocks.nodup
    intro b hb c hc heq
    obtain ⟨k, hk⟩ := (hblocks.mem_iff b).mp hb
    obtain ⟨k', hk'⟩ := (hblocks.mem_iff c).mp hc
    have hkeys : k = k' := by
      rw [← h.holds k b hk, ← h.holds k' c hk']
      exact heq
    rw [hkeys, hk'] at hk
    exact (Option.some.inj hk).symm
  · intro k t ht
    obtain ⟨b, hb, rfl⟩ := Option.map_eq_some_iff.mp ht
    exact h.holds k b hb
  · intro t
    rw [List.mem_map, NVMBlkEngine.live, Option.map_eq_some_iff]
    constructor
    · rintro ⟨b, hb, rfl⟩
      obtain ⟨k, hk⟩ := (hblocks.mem_iff b).mp hb
      exact ⟨b, h.holds k b hk ▸ hk, rfl⟩
    · rintro ⟨b, hb, rfl⟩
      exact ⟨b, (hblocks.mem_iff b).mpr ⟨_, hb⟩, rfl⟩

theorem lists_blocks (h : Inv s) (hfull : s.nextBlock = s.maxNumBlocks) :
    Lists Tuple.key s.live ((List.range s.maxNumBlocks).map s.blkPool) :=
  lists_enumerated h
    { nodup := List.nodup_range
      mem_iff := fun b => by
        rw [List.mem_range, ← hfull]
        exact ⟨h.onto b, fun ⟨k, hk⟩ => h.range k b hk⟩ }

theorem refines_create (n : Nat) : Refines (create n) ⟨[], fun _ => none⟩ := ⟨rfl, rfl⟩

theorem live_overwriteBlk (h : Inv s) {b : Nat} (hb : s.lookupTable tuple.key = some b) :
    (s.overwriteBlk b tuple).live = Function.update s.live tuple.key (some tuple) := by
  funext k
  show (s.lookupTable k).map (Function.update s.blkPool b tuple) = _
  by_cases hk : k = tuple.key
  · subst hk
    rw [hb, Function.update_self, Option.map_some, Function.update_self]
  · rw [Function.update_of_ne hk, live]
    cases hc : s.lookupTable k with
    | none => rfl
    | some c =>
      have hcb : c ≠ b := fun heq => hk (h.injective hc (heq ▸ hb))
      rw [Option.map_some, Option.map_some, Function.update_of_ne hcb]

theorem live_appendBlk (h : Inv s) :
    (s.appendBlk tuple).live = Function.update s.live tuple.key (some tuple) := by
  funext k
  show (Function.update s.lookupTable tuple.key (some s.nextBlock) k).map
    (Function.update s.blkPool s.nextBlock tuple) = _
  by_cases hk : k = tuple.key
  · subst hk
    rw [Function.update_self, Function.update_self, Option.map_some, Function.update_self]
  · rw [Function.update_of_ne hk, Function.update_of_ne hk, live]
    cases hc : s.lookupTable k with
    | none => rfl
    | some c =>
      have hlt := h.range k c hc
      rw [Option.map_some, Option.map_some, Function.update_of_ne (by omega)]

/-- **A successful store is a put**, as long as the writes of its flush are
    complete. -/
theorem updateTuple_put (hwrites : ∀ b, env.diskWrite b = .complete) (h : Inv s)
    {st : InPlace Tuple UInt64} (hst : Refines s st)
    (hsuccess : (s.updateTuple env tuple).1 = .returned .kSuccess) :
    ∃ st', InPlace.Put Tuple.key tuple st st' ∧ Refines (s.updateTuple env tuple).2 st' := by
  have hcases := stored_cases env s tuple
  generalize s.updateTuple env tuple = r at hsuccess hcases ⊢
  cases hcases with
  | overwritten b hb _ =>
    refine ⟨st.store Tuple.key tuple, InPlace.put_store _ _, hst.disk, ?_⟩
    rw [live_overwriteBlk h hb, ← hst.live]
    rfl
  | appended _ _ _ =>
    refine ⟨st.store Tuple.key tuple, InPlace.put_store _ _, hst.disk, ?_⟩
    rw [live_appendBlk h, ← hst.live]
    rfl
  | flushedAppended disk hnew hfull _ hflush _ =>
    have hdisk := flushBlocks_complete hwrites hflush
    have hE : Lists Tuple.key st.live ((List.range s.maxNumBlocks).map s.blkPool) := by
      rw [hst.live]
      exact lists_blocks h hfull
    have hlive : st.live tuple.key = none := by
      rw [hst.live, live, hnew, Option.map_none]
    refine ⟨(st.flush _).store Tuple.key tuple, InPlace.put_flush hlive hE, ?_, ?_⟩
    · show disk = _
      rw [hdisk, hst.disk, ← FixedCode.writeAll_append]
      rfl
    · rw [live_appendBlk (inv_flushed s disk)]
      rfl
  | refused _ => cases hsuccess
  | flushedRefused _ _ _ _ _ _ => cases hsuccess
  | flushThrew _ _ _ _ _ _ => cases hsuccess

theorem maxNumBlocks_updateTuple (env : BlkEnv) (s : NVMBlkEngine) (tuple : Tuple) :
    (s.updateTuple env tuple).2.maxNumBlocks = s.maxNumBlocks := by
  have hcases := stored_cases env s tuple
  generalize s.updateTuple env tuple = r at hcases
  cases hcases <;> rfl

theorem updateTuple_kSuccess (henv : env.Ok) (h : Inv s) (hpos : 0 < s.maxNumBlocks)
    (tuple : Tuple) : (s.updateTuple env tuple).1 = .returned .kSuccess := by
  have hle := h.next_le
  have hcases := stored_cases env s tuple
  generalize s.updateTuple env tuple = r at hcases
  cases hcases with
  | overwritten _ _ _ => rfl
  | appended _ _ _ => rfl
  | flushedAppended _ _ _ _ _ _ => rfl
  | refused hrefused =>
    rcases hrefused with hw | ⟨b, hb, hge⟩ | ⟨-, hgt⟩
    · rw [henv.blkWrite] at hw
      cases hw
    · have hlt := h.range _ b hb
      omega
    · omega
  | flushedRefused disk _ _ _ _ hrefused =>
    rcases hrefused with hw | hzero
    · rw [henv.blkWrite] at hw
      cases hw
    · omega
  | flushThrew e disk _ _ hfailed _ => exact absurd hfailed henv.not_failed

end NVMBlkEngine

end NvrecYcsb.NvmBlk
