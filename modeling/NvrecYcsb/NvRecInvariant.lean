/-
  NvrecYcsb/NvRecInvariant.lean
  =============================
  **What holds between the client and the flush threads.**

  The invariant `Inv` covers runs with restarts and any interleaving, as long as
  the devices work; transactions may abort at any time.  It says who owns which
  pool: the current pool has a file and has not been handed to a thread, a
  thread that is not finished is the last one started and owns its file, and a
  finished thread's file is gone.  It also says how far the disk log is: it
  holds the tuples of all pools handed over, less those that the last thread
  still has to write.

  This module defines it and proves that the steps of the flush threads keep it
  (`inv_flushStep`), from an inversion of these steps (`flushStep_advanced`).  Who
  owns what is kept also when a device fails (`Ownership`), and all but the last
  part whatever the disk log held before (`Usable`).
-/
import NvrecYcsb.NvRec
import Mathlib.Data.List.Nodup

namespace NvrecYcsb.NvRec

open CppRuntime RecoveryDefs RecoveryInterface ListPool PersistentList NVRecEngine
  Framing

/-- The thread has not closed its pool yet. -/
def FlushPc.holdsPool : FlushPc → Bool
  | .unlinking => false
  | .finished _ => false
  | _ => true

namespace NVRecEngine

/-! ### Pool names -/

theorem poolPath_injective : Function.Injective poolPath := by
  have hne : ∀ n : Nat, kPoolPath ++ stdToString n ≠ kPoolPath := fun n h =>
    stdToString_ne_nil n (List.append_cancel_left (h.trans (List.append_nil _).symm))
  intro m n h
  rw [poolPath, poolPath] at h
  by_cases hm : m = 0
  · by_cases hn : n = 0
    · rw [hm, hn]
    · rw [if_pos hm, if_neg hn] at h
      exact absurd h.symm (hne n)
  · by_cases hn : n = 0
    · rw [if_neg hm, if_pos hn] at h
      exact absurd h (hne m)
    · rw [if_neg hm, if_neg hn] at h
      exact stdToString_injective (List.append_cancel_left h)

theorem poolPath_succ_ne (n : Nat) : poolPath (n + 1) ≠ poolPath n := fun h =>
  Nat.succ_ne_self n (poolPath_injective h)

/-! ### What has been handed over, and what has not -/

/-- The tuples of a pool, head to tail. -/
def tuplesOf (s : NVRecEngine) (id : PoolId) : List Tuple := (s.pools id).list.tuples

/-- The pools handed to flush threads, in the order of the threads. -/
def handedPools (s : NVRecEngine) : List PoolId :=
  (List.range s.launched).map fun i => (s.flushes i).pool

/-- The tuples of the pools handed over. -/
def handed (s : NVRecEngine) : List Tuple := s.handedPools.flatMap s.tuplesOf

/-- The files whose pools have not been handed over. -/
def ownFiles (s : NVRecEngine) : List (Str × PoolId) :=
  s.files.filter fun f => f.2 ∉ s.handedPools

def unflushed (s : NVRecEngine) : List Tuple := s.ownFiles.flatMap fun f => s.tuplesOf f.2

/-- What a thread at `pc` still has to write of its list. -/
def leftOf (list : PersistentList) : FlushPc → List Tuple
  | .starting => list.tuples
  | .reading current => list.tuplesFrom current
  | .writing p _ => list.tuplesFrom (some p)
  | _ => []

/-- The steps a flush thread at `pc` still has to take. -/
def stepsLeft (list : PersistentList) : FlushPc → Nat
  | .starting => 2 * list.tuples.length + 5
  | .reading current => 2 * (list.tuplesFrom current).length + 4
  | .writing p _ => 2 * (list.tuplesFrom (some p)).length + 3
  | .syncing => 3
  | .closing => 2
  | .unlinking => 1
  | .finished _ => 0

def flushList (s : NVRecEngine) (i : Nat) : PersistentList := (s.pools (s.flushes i).pool).list

def remaining (s : NVRecEngine) : List Tuple :=
  match s.launched with
  | 0 => []
  | i + 1 => leftOf (s.flushList i) (s.flushes i).pc

/-! ### The invariant -/

/-- A thread at `pc` is at a node of its list, and holds the tuple of that node. -/
def OnList (list : PersistentList) : FlushPc → Prop
  | .reading (some p) => ∃ n, list.heap[p]? = some n
  | .writing p t => ∃ n, list.heap[p]? = some n ∧ n.obj = t
  | _ => True

def Opening (s : NVRecEngine) : Prop := ∃ value, s.client = .opening value

structure Pending (s : NVRecEngine) (i : Nat) : Prop where
  last : i + 1 = s.launched
  future : s.flushResult = some i
  file : ((s.flushes i).poolPath, (s.flushes i).pool) ∈ s.files
  path : s.Opening → (s.flushes i).poolPath = poolPath s.poolCounter
  isOpen : (s.flushes i).pc.holdsPool = true → (s.pools (s.flushes i).pool).isOpen = true

structure Ended (s : NVRecEngine) (i : Nat) : Prop where
  result : (s.flushes i).pc = .finished (.returned .kSuccess)
  unlinked : ∀ f ∈ s.files, f.2 ≠ (s.flushes i).pool

/-- The current pool, except while the next one is being opened. -/
structure Current (s : NVRecEngine) : Prop where
  file : (poolPath s.poolCounter, s.pool) ∈ s.files
  isOpen : (s.pools s.pool).isOpen = true
  own : s.pool ∉ s.handedPools

structure Inv (s : NVRecEngine) : Prop where
  lists : ∀ id, (s.pools id).list.WellFormed
  paths : (s.files.map Prod.fst).Nodup
  ids : (s.files.map Prod.snd).Nodup
  known : ∀ f ∈ s.files, f.2 < s.created
  handedKnown : ∀ id ∈ s.handedPools, id < s.created
  onList : ∀ i < s.launched, OnList (s.flushList i) (s.flushes i).pc
  pending : ∀ i < s.launched, (s.flushes i).pc.isFinished = false → s.Pending i
  ended : ∀ i < s.launched, (s.flushes i).pc.isFinished = true → s.Ended i
  future : ∀ i, s.flushResult = some i → i < s.launched
  launching : ∀ value, s.client = .launching value → s.flushResult = none
  current : ¬s.Opening → s.Current
  lookup : ∀ k p, s.lookupTable k = some p →
    ∃ n, (s.pools s.pool).list.heap[p]? = some n ∧ n.obj.key = k
  opening : s.Opening → ∀ k, s.lookupTable k = none
  disk : ∃ ds, s.diskLog = tupleCode.writeAll ds ∧ ds ++ s.remaining = s.handed

/-- Who owns which pool, and whose file is which: the part of the invariant that
    does not ask what the flushes achieve. -/
structure Ownership (s : NVRecEngine) : Prop where
  lists : ∀ id, (s.pools id).list.WellFormed
  paths : (s.files.map Prod.fst).Nodup
  ids : (s.files.map Prod.snd).Nodup
  known : ∀ f ∈ s.files, f.2 < s.created
  handedKnown : ∀ id ∈ s.handedPools, id < s.created
  pending : ∀ i < s.launched, (s.flushes i).pc.isFinished = false → s.Pending i
  future : ∀ i, s.flushResult = some i → i < s.launched
  launching : ∀ value, s.client = .launching value → s.flushResult = none
  current : ¬s.Opening → s.Current

/-- The invariant without what the disk log holds. -/
structure Usable (s : NVRecEngine) : Prop where
  ownership : s.Ownership
  onList : ∀ i < s.launched, OnList (s.flushList i) (s.flushes i).pc
  ended : ∀ i < s.launched, (s.flushes i).pc.isFinished = true → s.Ended i
  lookup : ∀ k p, s.lookupTable k = some p →
    ∃ n, (s.pools s.pool).list.heap[p]? = some n ∧ n.obj.key = k
  opening : s.Opening → ∀ k, s.lookupTable k = none

variable {s : NVRecEngine} {i : Nat}

theorem Inv.ownership (h : s.Inv) : s.Ownership where
  lists := h.lists
  paths := h.paths
  ids := h.ids
  known := h.known
  handedKnown := h.handedKnown
  pending := h.pending
  future := h.future
  launching := h.launching
  current := h.current

theorem Inv.usable (h : s.Inv) : s.Usable :=
  ⟨h.ownership, h.onList, h.ended, h.lookup, h.opening⟩

theorem Usable.inv (h : s.Usable)
    (hdisk : ∃ ds, s.diskLog = tupleCode.writeAll ds ∧ ds ++ s.remaining = s.handed) : s.Inv where
  lists := h.ownership.lists
  paths := h.ownership.paths
  ids := h.ownership.ids
  known := h.ownership.known
  handedKnown := h.ownership.handedKnown
  onList := h.onList
  pending := h.ownership.pending
  ended := h.ended
  future := h.ownership.future
  launching := h.ownership.launching
  current := h.ownership.current
  lookup := h.lookup
  opening := h.opening
  disk := hdisk

theorem Ownership.finished_of_ne (h : s.Ownership) (hi : i < s.launched)
    (hunfinished : (s.flushes i).pc.isFinished = false) {j : Nat} (hj : j < s.launched)
    (hne : j ≠ i) : (s.flushes j).pc.isFinished = true := by
  by_contra hfin
  have hlast := (h.pending i hi hunfinished).last
  have hlast' := (h.pending j hj (by simpa using hfin)).last
  omega

theorem Ownership.finished_of_future (h : s.Ownership) (hfuture : s.flushResult = none) :
    ∀ i < s.launched, (s.flushes i).pc.isFinished = true := by
  intro i hi
  by_contra hfin
  have hpend := (h.pending i hi (by simpa using hfin)).future
  rw [hfuture] at hpend
  cases hpend

/-- The flush that the engine waits for is the last one to finish. -/
theorem Ownership.finished_of_last (h : s.Ownership) {j : Nat} (hfuture : s.flushResult = some j)
    (hfin : (s.flushes j).pc.isFinished = true) :
    ∀ i < s.launched, (s.flushes i).pc.isFinished = true := by
  intro i hi
  by_contra hnot
  have hpend := (h.pending i hi (by simpa using hnot)).future
  rw [hfuture] at hpend
  obtain rfl := Option.some.inj hpend
  exact hnot hfin

theorem Ownership.file_of_path (h : s.Ownership) {f g : Str × PoolId} (hf : f ∈ s.files)
    (hg : g ∈ s.files) (heq : f.1 = g.1) : f = g := List.inj_on_of_nodup_map h.paths hf hg heq

theorem Ownership.file_of_pool (h : s.Ownership) {f g : Str × PoolId} (hf : f ∈ s.files)
    (hg : g ∈ s.files) (heq : f.2 = g.2) : f = g := List.inj_on_of_nodup_map h.ids hf hg heq

theorem mem_handedPools {id : PoolId} :
    id ∈ s.handedPools ↔ ∃ i < s.launched, (s.flushes i).pool = id := by
  simp [handedPools]

theorem flushes_mem_handedPools (hi : i < s.launched) : (s.flushes i).pool ∈ s.handedPools :=
  mem_handedPools.mpr ⟨i, hi, rfl⟩

theorem remaining_of_last (h : i + 1 = s.launched) :
    s.remaining = leftOf (s.flushList i) (s.flushes i).pc := by
  rw [remaining, ← h]

/-! ### Steps of a flush thread -/

/-- Flush thread `i` at `pc`, with other bytes on disk and pools closed or open
    differently. -/
def moveFlush (s : NVRecEngine) (i : Nat) (pc : FlushPc) (pools : PoolId → Pool)
    (diskLog : List Byte) : NVRecEngine :=
  { s with diskLog := diskLog, pools := pools }.setPc i pc

/-- The pools are as before, except that pools handed over may have been closed. -/
structure SameLists (s : NVRecEngine) (pools : PoolId → Pool) : Prop where
  list : ∀ id, (pools id).list = (s.pools id).list
  isOpen : ∀ id, id ∉ s.handedPools → (pools id).isOpen = (s.pools id).isOpen

theorem SameLists.refl (s : NVRecEngine) : s.SameLists s.pools := ⟨fun _ => rfl, fun _ _ => rfl⟩

/-- A thread that holds its pool at `pc` has held it, and it is as open as it was. -/
def Holds (s : NVRecEngine) (i : Nat) (pc : FlushPc) (pools : PoolId → Pool) : Prop :=
  pc.holdsPool = true → (s.flushes i).pc.holdsPool = true ∧
    (pools (s.flushes i).pool).isOpen = (s.pools (s.flushes i).pool).isOpen

section MoveFlush

variable {pc : FlushPc} {pools : PoolId → Pool} {diskLog : List Byte}

theorem moveFlush_pc_self : ((s.moveFlush i pc pools diskLog).flushes i).pc = pc := by
  simp [moveFlush, setPc]

theorem moveFlush_flushes_ne {j : Nat} (h : j ≠ i) :
    (s.moveFlush i pc pools diskLog).flushes j = s.flushes j := by
  simp [moveFlush, setPc, h]

theorem moveFlush_pool (j : Nat) :
    ((s.moveFlush i pc pools diskLog).flushes j).pool = (s.flushes j).pool := by
  by_cases h : j = i
  · subst h
    simp [moveFlush, setPc]
  · rw [moveFlush_flushes_ne h]

theorem moveFlush_poolPath (j : Nat) :
    ((s.moveFlush i pc pools diskLog).flushes j).poolPath = (s.flushes j).poolPath := by
  by_cases h : j = i
  · subst h
    simp [moveFlush, setPc]
  · rw [moveFlush_flushes_ne h]

theorem moveFlush_handedPools :
    (s.moveFlush i pc pools diskLog).handedPools = s.handedPools :=
  List.map_congr_left fun j _ => moveFlush_pool j

theorem moveFlush_tuplesOf (hpools : s.SameLists pools) :
    (s.moveFlush i pc pools diskLog).tuplesOf = s.tuplesOf := by
  funext id
  show (pools id).list.tuples = _
  rw [hpools.list, tuplesOf]

theorem moveFlush_handed (hpools : s.SameLists pools) :
    (s.moveFlush i pc pools diskLog).handed = s.handed := by
  rw [handed, moveFlush_handedPools, moveFlush_tuplesOf hpools, handed]

theorem moveFlush_flushList (hpools : s.SameLists pools) (j : Nat) :
    (s.moveFlush i pc pools diskLog).flushList j = s.flushList j := by
  rw [flushList, moveFlush_pool]
  exact hpools.list _

theorem ownership_moveFlush (h : s.Ownership) (hi : i < s.launched)
    (hunfinished : (s.flushes i).pc.isFinished = false) (hpools : s.SameLists pools)
    (hholds : s.Holds i pc pools) : (s.moveFlush i pc pools diskLog).Ownership := by
  have hpend := h.pending i hi hunfinished
  refine ⟨fun id => ?_, h.paths, h.ids, h.known, ?_, fun j hj hfin => ?_, h.future, h.launching,
    fun hopen => ?_⟩
  · show (pools id).list.WellFormed
    rw [hpools.list]
    exact h.lists id
  · rw [moveFlush_handedPools]
    exact h.handedKnown
  · by_cases hji : j = i
    · subst hji
      refine ⟨hpend.last, hpend.future, ?_, ?_, fun hpc => ?_⟩
      · rw [moveFlush_poolPath, moveFlush_pool]
        exact hpend.file
      · rw [moveFlush_poolPath]
        exact hpend.path
      · rw [moveFlush_pc_self] at hpc
        rw [moveFlush_pool]
        obtain ⟨hheld, hsame⟩ := hholds hpc
        exact hsame.trans (hpend.isOpen hheld)
    · rw [moveFlush_flushes_ne hji, h.finished_of_ne hi hunfinished hj hji] at hfin
      cases hfin
  · have hcur := h.current hopen
    refine ⟨hcur.file, ?_, ?_⟩
    · show (pools s.pool).isOpen = true
      rw [hpools.isOpen _ hcur.own]
      exact hcur.isOpen
    · rw [moveFlush_handedPools]
      exact hcur.own

theorem usable_moveFlush (h : s.Usable) (hi : i < s.launched)
    (hunfinished : (s.flushes i).pc.isFinished = false) (hpools : s.SameLists pools)
    (hholds : s.Holds i pc pools) (hpc : pc.isFinished = false)
    (hon : OnList (s.flushList i) pc) : (s.moveFlush i pc pools diskLog).Usable := by
  refine ⟨ownership_moveFlush h.ownership hi hunfinished hpools hholds, fun j hj => ?_,
    fun j hj hfin => ?_, fun k p hk => ?_, h.opening⟩
  · rw [moveFlush_flushList hpools]
    by_cases hji : j = i
    · subst hji
      rw [moveFlush_pc_self]
      exact hon
    · rw [moveFlush_flushes_ne hji]
      exact h.onList j hj
  · by_cases hji : j = i
    · subst hji
      rw [moveFlush_pc_self, hpc] at hfin
      cases hfin
    · have hend := h.ended j hj (h.ownership.finished_of_ne hi hunfinished hj hji)
      exact ⟨by rw [moveFlush_flushes_ne hji]; exact hend.result, by
        rw [moveFlush_pool]; exact hend.unlinked⟩
  · show ∃ n, (pools s.pool).list.heap[p]? = some n ∧ n.obj.key = k
    rw [hpools.list]
    exact h.lookup k p hk

theorem inv_moveFlush (h : s.Inv) (hi : i < s.launched)
    (hunfinished : (s.flushes i).pc.isFinished = false) (hpools : s.SameLists pools)
    (hholds : s.Holds i pc pools) (hpc : pc.isFinished = false) (hon : OnList (s.flushList i) pc)
    (hdisk : ∃ ds, diskLog = tupleCode.writeAll ds ∧ ds ++ leftOf (s.flushList i) pc = s.handed) :
    (s.moveFlush i pc pools diskLog).Inv := by
  refine (usable_moveFlush h.usable hi hunfinished hpools hholds hpc hon).inv ?_
  obtain ⟨ds, hd, hleft⟩ := hdisk
  have hlast : i + 1 = (s.moveFlush i pc pools diskLog).launched :=
    (h.pending i hi hunfinished).last
  refine ⟨ds, hd, ?_⟩
  rw [remaining_of_last hlast, moveFlush_flushList hpools, moveFlush_pc_self,
    moveFlush_handed hpools]
  exact hleft

end MoveFlush

/-- The last step of flush thread `i`: the file of its pool is gone. -/
def unlinked (s : NVRecEngine) (i : Nat) : NVRecEngine :=
  { s with files := s.files.filter fun f => f.1 ≠ (s.flushes i).poolPath }.setPc i
    (.finished (.returned .kSuccess))

/-- What a step of flush thread `i` can do while the devices work. -/
inductive FlushMoved (s : NVRecEngine) (i : Nat) : NVRecEngine → Prop
  | stay : FlushMoved s i s
  | move (pc : FlushPc) (pools : PoolId → Pool) (diskLog : List Byte) (hi : i < s.launched)
      (hunfinished : (s.flushes i).pc.isFinished = false) (hpools : s.SameLists pools)
      (hholds : s.Holds i pc pools) (hpc : pc.isFinished = false)
      (hon : OnList (s.flushList i) pc) (hdisk : ∃ ds, diskLog = tupleCode.writeAll ds ∧
        ds ++ leftOf (s.flushList i) pc = s.handed) :
      FlushMoved s i (s.moveFlush i pc pools diskLog)
  | unlink (hi : i < s.launched) (hpc : (s.flushes i).pc = .unlinking) :
      FlushMoved s i (s.unlinked i)

theorem lookup_isSome_of_mem {files : List (Str × PoolId)} {f : Str × PoolId} (h : f ∈ files) :
    (files.lookup f.1).isSome = true := by
  induction files with
  | nil => cases h
  | cons g files ih =>
    rw [List.lookup_cons]
    by_cases hfg : f.1 = g.1
    · simp [hfg]
    · have hmem : f ∈ files := by
        rcases List.mem_cons.mp h with rfl | h
        · exact absurd rfl hfg
        · exact h
      simp [beq_false_of_ne hfg, ih hmem]

/-- The same for a thread that has not finished: what it writes, and that it is one
    step closer to its end. -/
inductive FlushAdvanced (s : NVRecEngine) (i : Nat) : NVRecEngine → Prop
  | move (pc : FlushPc) (pools : PoolId → Pool) (diskLog : List Byte) (written : List Tuple)
      (hpools : s.SameLists pools) (hholds : s.Holds i pc pools) (hpc : pc.isFinished = false)
      (hon : OnList (s.flushList i) pc) (hdisk : diskLog = s.diskLog ++ tupleCode.writeAll written)
      (hleft : leftOf (s.flushList i) (s.flushes i).pc = written ++ leftOf (s.flushList i) pc)
      (hsteps : stepsLeft (s.flushList i) pc + 1 =
        stepsLeft (s.flushList i) (s.flushes i).pc) :
      FlushAdvanced s i (s.moveFlush i pc pools diskLog)
  | unlink (hpc : (s.flushes i).pc = .unlinking) : FlushAdvanced s i (s.unlinked i)

theorem sameLists_closed (hi : i < s.launched) :
    s.SameLists (Function.update s.pools (s.flushes i).pool
      { s.pools (s.flushes i).pool with isOpen := false }) := by
  constructor
  · intro id
    by_cases hpool : id = (s.flushes i).pool
    · subst hpool
      simp
    · simp [hpool]
  · intro id hid
    have hpool : id ≠ (s.flushes i).pool := fun heq => hid (heq ▸ flushes_mem_handedPools hi)
    simp [hpool]

/-- A step that leaves the pools alone. -/
theorem Holds.of_pools {pc : FlushPc} (h : (s.flushes i).pc.holdsPool = true) :
    s.Holds i pc s.pools := fun _ => ⟨h, rfl⟩

theorem Pending.not_closed (h : s.Pending i) (hpc : (s.flushes i).pc.holdsPool = true) :
    ¬(s.pools (s.flushes i).pool).isOpen = false := by
  rw [h.isOpen hpc]
  exact Bool.noConfusion

/-- **Inversion of a flush step**, while the devices work. -/
theorem flushStep_advanced (h : s.Usable) (hi : i < s.launched)
    (hunfinished : (s.flushes i).pc.isFinished = false) {env : FlushEnv}
    (hok : (Tick.flush i env).Ok) : FlushAdvanced s i (s.flushStep env i) := by
  obtain ⟨hopen, hwrite, hunlink⟩ := hok
  have hlist : (s.flushList i).WellFormed := h.ownership.lists _
  have hon := h.onList i hi
  have hpend := h.ownership.pending i hi hunfinished
  -- a step that writes nothing and leaves the pools alone
  have hset : ∀ pc : FlushPc, (s.flushes i).pc.holdsPool = true → pc.isFinished = false →
      OnList (s.flushList i) pc →
      leftOf (s.flushList i) (s.flushes i).pc = leftOf (s.flushList i) pc →
      stepsLeft (s.flushList i) pc + 1 = stepsLeft (s.flushList i) (s.flushes i).pc →
      FlushAdvanced s i (s.setPc i pc) := fun pc hheld hpc hon hleft hsteps =>
    .move pc s.pools s.diskLog [] (.refl s) (.of_pools hheld) hpc hon (List.append_nil _).symm hleft
      hsteps
  rw [flushStep, if_pos hi, flushThreadStep]
  cases hpc : (s.flushes i).pc with
  | starting =>
    have hmapped := hpend.not_closed (by rw [hpc]; rfl)
    rw [hpc] at hset
    have hhead := tuplesFrom_head hlist
    simp only [hmapped, hopen, if_true]
    refine hset _ rfl rfl ?_ hhead.symm ?_
    · cases hfirst : (s.pools (s.flushes i).pool).list.head with
      | none => trivial
      | some p => exact head_mem hlist hfirst
    · rw [stepsLeft, stepsLeft, ← hhead]
      rfl
  | reading current =>
    have hmapped := hpend.isOpen (by rw [hpc]; rfl)
    rw [hpc] at hset hon
    cases current with
    | none => exact hset _ rfl rfl trivial rfl rfl
    | some p =>
      obtain ⟨n, hn⟩ := hon
      have hnode : s.flushNode i p = some n := by
        rw [flushNode, if_pos hmapped]
        exact hn
      simp only [hnode]
      exact hset _ rfl rfl ⟨n, hn, rfl⟩ rfl rfl
  | writing p t =>
    have hheld : (s.flushes i).pc.holdsPool = true := by rw [hpc]; rfl
    rw [hpc] at hon
    obtain ⟨n, hn, rfl⟩ := hon
    have hnode : ({ s with diskLog := s.diskLog ++ n.obj.bytes } : NVRecEngine).flushNode i p =
        some n := by
      rw [flushNode, if_pos (hpend.isOpen hheld)]
      exact hn
    have hsize : ((n.obj.bytes.length : Nat) : Int) = sizeofTuple := by rw [n.obj.length_bytes]
    have htuples := tuplesFrom_succ hlist hn
    simp only [hwrite, osWrite_complete, hsize, if_true, hnode]
    refine .move _ s.pools (s.diskLog ++ n.obj.bytes) [n.obj] (.refl s) (.of_pools hheld) rfl
      ?_ ?_ ?_ ?_
    · cases hnext : n.next with
      | none => trivial
      | some q => exact next_mem hlist hn hnext
    · simp [tupleCode]
    · rw [hpc]
      exact htuples
    · rw [hpc, stepsLeft, stepsLeft, htuples, List.length_cons]
      omega
  | syncing =>
    rw [hpc] at hset
    exact hset _ rfl rfl trivial rfl rfl
  | closing =>
    have hmapped := hpend.not_closed (by rw [hpc]; rfl)
    simp only [hmapped]
    exact .move .unlinking _ s.diskLog [] (sameLists_closed hi) (fun hheld => by cases hheld) rfl
      trivial (List.append_nil _).symm (by rw [hpc]; rfl) (by rw [hpc]; rfl)
  | unlinking =>
    simp only [hunlink, lookup_isSome_of_mem hpend.file, and_self, if_true]
    exact .unlink hpc
  | finished r =>
    rw [hpc] at hunfinished
    cases hunfinished

/-- A thread that has not been started or has finished does not move. -/
theorem flushStep_of_not_unfinished (env : FlushEnv)
    (h : ¬(i < s.launched ∧ (s.flushes i).pc.isFinished = false)) : s.flushStep env i = s := by
  rw [flushStep]
  by_cases hi : i < s.launched
  · rw [if_pos hi, flushThreadStep]
    cases hpc : (s.flushes i).pc with
    | finished r => rfl
    | _ => exact absurd ⟨hi, by rw [hpc]; rfl⟩ h
  · rw [if_neg hi]

theorem flushStep_moved (h : s.Inv) (i : Nat) {env : FlushEnv} (hok : (Tick.flush i env).Ok) :
    FlushMoved s i (s.flushStep env i) := by
  by_cases hrunning : i < s.launched ∧ (s.flushes i).pc.isFinished = false
  · obtain ⟨hi, hunfinished⟩ := hrunning
    have hadvanced := flushStep_advanced h.usable hi hunfinished hok
    generalize s.flushStep env i = s' at hadvanced ⊢
    cases hadvanced with
    | move pc pools diskLog written hpools hholds hpc hon hdisk hleft _ =>
      obtain ⟨ds, hds, hhanded⟩ := h.disk
      rw [remaining_of_last (h.pending i hi hunfinished).last, hleft] at hhanded
      refine .move pc pools diskLog hi hunfinished hpools hholds hpc hon ⟨ds ++ written, ?_, ?_⟩
      · rw [hdisk, hds, FixedCode.writeAll_append]
      · rw [List.append_assoc]
        exact hhanded
    | unlink hpc => exact .unlink hi hpc
  · rw [flushStep_of_not_unfinished env hrunning]
    exact .stay

theorem unlinked_pool (j : Nat) : ((s.unlinked i).flushes j).pool = (s.flushes j).pool :=
  show ((s.moveFlush i (.finished (.returned .kSuccess)) s.pools s.diskLog).flushes j).pool = _ from
    moveFlush_pool j

theorem unlinked_handedPools : (s.unlinked i).handedPools = s.handedPools :=
  List.map_congr_left fun j _ => unlinked_pool j

theorem unlinked_handed : (s.unlinked i).handed = s.handed := by
  rw [handed, unlinked_handedPools]
  rfl

theorem unlinked_flushes_ne {j : Nat} (h : j ≠ i) : (s.unlinked i).flushes j = s.flushes j := by
  simp [unlinked, setPc, h]

theorem unlinked_pc_self : ((s.unlinked i).flushes i).pc = .finished (.returned .kSuccess) := by
  simp [unlinked, setPc]

theorem mem_unlinked_files {f : Str × PoolId} :
    f ∈ (s.unlinked i).files ↔ f ∈ s.files ∧ f.1 ≠ (s.flushes i).poolPath := by
  show f ∈ s.files.filter _ ↔ _
  simp

/-- A flush thread that works is one step closer to its end after each step. -/
theorem stepsLeft_flushStep (h : s.Usable) (hi : i < s.launched)
    (hunfinished : (s.flushes i).pc.isFinished = false) {env : FlushEnv}
    (hok : (Tick.flush i env).Ok) :
    stepsLeft ((s.flushStep env i).flushList i) ((s.flushStep env i).flushes i).pc + 1 =
      stepsLeft (s.flushList i) (s.flushes i).pc := by
  have hadvanced := flushStep_advanced h hi hunfinished hok
  generalize s.flushStep env i = s' at hadvanced ⊢
  cases hadvanced with
  | move pc pools diskLog written hpools _ _ _ _ _ hsteps =>
    rw [moveFlush_flushList hpools, moveFlush_pc_self]
    exact hsteps
  | unlink hpc =>
    rw [unlinked_pc_self, hpc]
    rfl

theorem ownership_unlinked (h : s.Ownership) (hi : i < s.launched)
    (hunfinished : (s.flushes i).pc.isFinished = false) : (s.unlinked i).Ownership := by
  have hpend := h.pending i hi hunfinished
  refine ⟨h.lists, ?_, ?_, fun f hf => h.known f (mem_unlinked_files.mp hf).1, ?_,
    fun j hj hfin => ?_, h.future, h.launching, fun hopen => ?_⟩
  · exact h.paths.sublist (List.filter_sublist.map _)
  · exact h.ids.sublist (List.filter_sublist.map _)
  · rw [unlinked_handedPools]
    exact h.handedKnown
  · by_cases hji : j = i
    · subst hji
      rw [unlinked_pc_self] at hfin
      cases hfin
    · rw [unlinked_flushes_ne hji, h.finished_of_ne hi hunfinished hj hji] at hfin
      cases hfin
  · have hcur := h.current hopen
    refine ⟨mem_unlinked_files.mpr ⟨hcur.file, fun heq => hcur.own ?_⟩, hcur.isOpen, ?_⟩
    · have hsame := h.file_of_path hcur.file hpend.file heq
      have hpool : s.pool = (s.flushes i).pool := congrArg Prod.snd hsame
      rw [hpool]
      exact flushes_mem_handedPools hi
    · rw [unlinked_handedPools]
      exact hcur.own

theorem usable_unlinked (h : s.Usable) (hi : i < s.launched)
    (hunfinished : (s.flushes i).pc.isFinished = false) : (s.unlinked i).Usable := by
  have hpend := h.ownership.pending i hi hunfinished
  refine ⟨ownership_unlinked h.ownership hi hunfinished, fun j hj => ?_, fun j hj _ => ?_, h.lookup,
    h.opening⟩
  · by_cases hji : j = i
    · subst hji
      rw [unlinked_pc_self]
      trivial
    · rw [flushList, unlinked_flushes_ne hji]
      exact h.onList j hj
  · by_cases hji : j = i
    · subst hji
      refine ⟨unlinked_pc_self, fun f hf heq => ?_⟩
      rw [unlinked_pool] at heq
      obtain ⟨hf, hne⟩ := mem_unlinked_files.mp hf
      exact hne (congrArg Prod.fst (h.ownership.file_of_pool hf hpend.file heq))
    · have hend := h.ended j hj (h.ownership.finished_of_ne hi hunfinished hj hji)
      refine ⟨by rw [unlinked_flushes_ne hji]; exact hend.result, fun f hf => ?_⟩
      rw [unlinked_pool]
      exact hend.unlinked f (mem_unlinked_files.mp hf).1

theorem inv_unlinked (h : s.Inv) (hi : i < s.launched) (hpc : (s.flushes i).pc = .unlinking) :
    (s.unlinked i).Inv := by
  have hunfinished : (s.flushes i).pc.isFinished = false := by rw [hpc]; rfl
  have hpend := h.pending i hi hunfinished
  refine (usable_unlinked h.usable hi hunfinished).inv ?_
  obtain ⟨ds, hds, hleft⟩ := h.disk
  rw [remaining_of_last hpend.last, hpc] at hleft
  refine ⟨ds, hds, ?_⟩
  rw [remaining_of_last (s := s.unlinked i) hpend.last, unlinked_pc_self, unlinked_handed]
  exact hleft

theorem usable_flushStep (h : s.Usable) (i : Nat) {env : FlushEnv}
    (hok : (Tick.flush i env).Ok) : (s.flushStep env i).Usable := by
  by_cases hrunning : i < s.launched ∧ (s.flushes i).pc.isFinished = false
  · obtain ⟨hi, hunfinished⟩ := hrunning
    have hadvanced := flushStep_advanced h hi hunfinished hok
    generalize s.flushStep env i = s' at hadvanced ⊢
    cases hadvanced with
    | move pc pools diskLog written hpools hholds hpc hon _ _ _ =>
      exact usable_moveFlush h hi hunfinished hpools hholds hpc hon
    | unlink _ => exact usable_unlinked h hi hunfinished
  · rw [flushStep_of_not_unfinished env hrunning]
    exact h

theorem inv_flushStep (h : s.Inv) (i : Nat) {env : FlushEnv} (hok : (Tick.flush i env).Ok) :
    (s.flushStep env i).Inv := by
  have hmoved := flushStep_moved h i hok
  generalize s.flushStep env i = s' at hmoved ⊢
  cases hmoved with
  | stay => exact h
  | move pc pools diskLog hi hunfinished hpools hholds hpc hon hdisk =>
    exact inv_moveFlush h hi hunfinished hpools hholds hpc hon hdisk
  | unlink hi hpc => exact inv_unlinked h hi hpc

end NVRecEngine

end NvrecYcsb.NvRec
