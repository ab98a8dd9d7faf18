/-
  NvrecYcsb/ListTransactions.lean
  ===============================
  **Transactions that insert into the persistent list**
  (`recovery/persistent_list.{h,cc}`, `NVRecEngine::FlushToDisk`).

  `Insert` is a program of calls: it allocates a node and writes fields one at a
  time.  It runs in a transaction that commits, or aborts at any call and undoes
  what it wrote.  The places that the allocator gives are not known, and a place
  may be given again after an abort.

  Of libpmemobj: `make_persistent` gives a place that is free, and an assignment to
  a persistent field takes a snapshot of the field before it changes it.  An abort
  takes back what was allocated and restores the snapshots.

  * `exec_insert`, `inserted_insertTx`: what the calls of a whole `Insert` write;
  * `keeps_step`: a transaction keeps the links, and what the nodes hold;
  * `wellLinked_run`: after any transactions the links visit the nodes that were
    committed, in both directions;
  * `flushLoop_run_iff`: the flush loop ends, and writes every committed entry;
  * `represents_commit`: the list of one pool, as a heap, is what they make of it.
-/
import NvrecYcsb.ListPool
import NvrecYcsb.LinkedLists
import NvrecYcsb.UndoLog
import NvrecYcsb.Runs

namespace NvrecYcsb.ListTransactions

open CppRuntime RecoveryDefs AtomicCalls UndoLog LinkedLists
open Runs (Throughout throughout_of_allSteps allSteps_const)
open ListPool (Ptr ListNode)

/-! ### The memory of a pool -/

/-- The fields of the root object and those of each node; `live` is the allocator's. -/
inductive Loc where
  | head | tail
  | live (p : Ptr) | next (p : Ptr) | prev (p : Ptr) | key (p : Ptr) | obj (p : Ptr)
deriving DecidableEq

abbrev Val : Loc → Type
  | .head | .tail | .next _ | .prev _ => Option Ptr
  | .live _ => Bool
  | .key _ => UInt64
  | .obj _ => Tuple

abbrev Mem := ∀ l, Val l

/-- What `PersistentList()` leaves: no head and no tail, whatever else there is. -/
def persistentList (rest : Mem) : Mem :=
  Function.update (Function.update rest .head none) .tail none

/-! ### `Insert` -/

inductive ListCall : Type → Type
  | makePersistent : ListCall Ptr
  | load (l : Loc) : ListCall (Val l)
  | store (l : Loc) (v : Val l) : ListCall Unit

/-- `Insert`.  Nothing else writes `head_` in between, so it is loaded once. -/
def insert (entry : Tuple) : Prog ListCall Ptr :=
  .call .makePersistent fun entryNode =>
  .call (.store (.key entryNode) entry.key) fun _ =>
  .call (.store (.obj entryNode) entry) fun _ =>
  .call (.load .head) fun head =>
    match (head : Option Ptr) with
    | none =>
      .call (.store .tail (some entryNode)) fun _ =>
      .call (.load .tail) fun tail =>
      .call (.store .head tail) fun _ => .ret entryNode
    | some oldHead =>
      .call (.store (.next entryNode) (some oldHead)) fun _ =>
      .call (.store (.prev oldHead) (some entryNode)) fun _ =>
      .call (.store .head (some entryNode)) fun _ => .ret entryNode

/-- What `make_persistent` writes: a node without links, with `fresh` in the fields
    that have no constructor. -/
def allocate (p : Ptr) (fresh : UInt64 × Tuple) (tx : Tx Val) : Tx Val :=
  ((((tx.store (.live p) true).store (.next p) none).store (.prev p) none).store
    (.key p) fresh.1).store (.obj p) fresh.2

/-- The calls, when the allocator has `place` for the node.  It throws when it has
    none, and a place that is live is none. -/
def handle (place : Option Ptr) (fresh : UInt64 × Tuple) : Handler ListCall (Tx Val)
  | _, .makePersistent, tx =>
    match place with
    | none => none
    | some p => if tx.mem (.live p) = true then none else some (p, allocate p fresh tx)
  | _, .load l, tx => some (tx.mem l, tx)
  | _, .store l v, tx => some ((), tx.store l v)

theorem undoable_handle (place : Option Ptr) (fresh : UInt64 × Tuple) :
    Undoable (handle place fresh) := by
  intro β c tx tx' answer h
  cases c with
  | makePersistent =>
    rcases place with _ | p
    · cases h
    · simp only [handle] at h
      split_ifs at h
      cases h
      simp [allocate]
  | load l =>
    cases h
    rfl
  | store l v =>
    cases h
    exact Tx.rollback_store tx l v

/-! ### Transactions -/

/-- A transaction that inserts: the entry, what the allocator does, and the call
    before which it aborts. -/
structure Transaction where
  entry : Tuple
  place : Option Ptr
  fresh : UInt64 × Tuple
  abortAt : Option Nat

def Transaction.exec (t : Transaction) (mem : Mem) : Option Ptr × Mem :=
  execTx (handle t.place t.fresh) (insert t.entry) t.abortAt (.begin mem)

/-- The memory, and the nodes that were committed with their entries, the first one
    first. -/
structure State where
  mem : Mem
  committed : List (Ptr × Tuple) := []

def step (s : State) (t : Transaction) : State :=
  match t.exec s.mem with
  | (none, mem) => { s with mem := mem }
  | (some p, mem) => { mem := mem, committed := s.committed ++ [(p, t.entry)] }

def run (rest : Mem) (ts : List Transaction) : State :=
  Runs.run step { mem := persistentList rest } ts

/-! ### What a whole `Insert` writes -/

/-- The memory in which the node at `p` is in front of the old head. -/
structure Inserted (mem : Mem) (p : Ptr) (entry : Tuple) (mem' : Mem) : Prop where
  head : mem' .head = some p
  tail : mem' .tail = if mem .head = none then some p else mem .tail
  live : ∀ q, mem' (.live q) = if q = p then true else mem (.live q)
  next : ∀ q, mem' (.next q) = if q = p then mem .head else mem (.next q)
  prev : ∀ q, mem' (.prev q) =
    if mem .head = some q then some p else if q = p then none else mem (.prev q)
  key : ∀ q, mem' (.key q) = if q = p then entry.key else mem (.key q)
  obj : ∀ q, mem' (.obj q) = if q = p then entry else mem (.obj q)

/-- The transaction in which the calls of a whole `Insert` were made. -/
def insertTx (mem : Mem) (p : Ptr) (fresh : UInt64 × Tuple) (entry : Tuple) : Tx Val :=
  let tx := ((allocate p fresh (.begin mem)).store (.key p) entry.key).store (.obj p) entry
  match (mem .head : Option Ptr) with
  | none => (tx.store .tail (some p)).store .head (some p)
  | some oldHead =>
    ((tx.store (.next p) (some oldHead)).store (.prev oldHead) (some p)).store .head (some p)

theorem exec_insert {mem : Mem} {p : Ptr} (hlive : mem (.live p) = false)
    (fresh : UInt64 × Tuple) (entry : Tuple) :
    (insert entry).exec (handle (some p) fresh) (.begin mem) =
      some (p, insertTx mem p fresh entry) := by
  cases hhead : mem .head with
  | none => simp [insert, insertTx, Prog.exec, handle, hlive, allocate, hhead]
  | some oldHead => simp [insert, insertTx, Prog.exec, handle, hlive, allocate, hhead]

theorem inserted_insertTx (mem : Mem) (p : Ptr) (fresh : UInt64 × Tuple) (entry : Tuple) :
    Inserted mem p entry (insertTx mem p fresh entry).mem := by
  cases hhead : mem .head with
  | none =>
    refine ⟨?_, ?_, ?_, ?_, ?_, ?_, ?_⟩
    · simp [insertTx, allocate, hhead]
    · simp [insertTx, allocate, hhead]
    all_goals
      intro q
      rcases eq_or_ne q p with rfl | hq
      · simp [insertTx, allocate, hhead]
      · simp [insertTx, allocate, hhead, hq]
  | some oldHead =>
    refine ⟨?_, ?_, ?_, ?_, ?_, ?_, ?_⟩
    · simp [insertTx, allocate, hhead]
    · simp [insertTx, allocate, hhead]
    all_goals
      intro q
      rcases eq_or_ne q oldHead with rfl | hold <;> rcases eq_or_ne q p with rfl | hq
      · simp [insertTx, allocate, hhead]
      · simp [insertTx, allocate, hhead, hq]
      · simp [insertTx, allocate, hhead, hold, hold.symm]
      · simp [insertTx, allocate, hhead, hq, hold, hold.symm]

theorem inserted_of_exec {mem : Mem} {place : Option Ptr} {fresh : UInt64 × Tuple} {entry : Tuple}
    {p : Ptr} {tx : Tx Val}
    (h : (insert entry).exec (handle place fresh) (.begin mem) = some (p, tx)) :
    mem (.live p) = false ∧ Inserted mem p entry tx.mem := by
  rcases place with _ | q
  · cases h
  · by_cases hlive : mem (.live q) = true
    · have hnone : (insert entry).exec (handle (some q) fresh) (.begin mem) = none := by
        simp [insert, Prog.exec, handle, hlive]
      rw [hnone] at h
      cases h
    · rw [Bool.not_eq_true] at hlive
      rw [exec_insert hlive fresh entry] at h
      cases h
      exact ⟨hlive, inserted_insertTx mem p fresh entry⟩

/-- **All that a transaction can do**: nothing, or put a node whose place was free in
    front of the list. -/
theorem step_cases (s : State) (t : Transaction) :
    step s t = s ∨
    ∃ p, s.mem (.live p) = false ∧ Inserted s.mem p t.entry (step s t).mem ∧
      (step s t).committed = s.committed ++ [(p, t.entry)] := by
  rcases execTx_cases (undoable_handle t.place t.fresh) (insert t.entry) t.abortAt
    (.begin s.mem) with habort | ⟨p, tx, hret, hcommit⟩
  · left
    rw [Tx.rollback_begin] at habort
    simp only [step, Transaction.exec, habort]
  · right
    obtain ⟨hlive, hinserted⟩ := inserted_of_exec hret
    refine ⟨p, hlive, ?_, ?_⟩
    · simp only [step, Transaction.exec, hcommit]
      exact hinserted
    · simp only [step, Transaction.exec, hcommit]

/-! ### The list after transactions -/

def nextIn (mem : Mem) (p : Ptr) : Option Ptr := mem (.next p)
def prevIn (mem : Mem) (p : Ptr) : Option Ptr := mem (.prev p)

/-- The nodes that were committed, the last one first. -/
def State.nodes (s : State) : List Ptr := (s.committed.map Prod.fst).reverse

/-- What each transaction keeps: the links, and that each node is live and holds its
    entry. -/
structure Keeps (s : State) : Prop where
  linked : DoublyLinked (nextIn s.mem) (prevIn s.mem) (s.mem .head) (s.mem .tail) s.nodes
  live : ∀ e ∈ s.committed, s.mem (.live e.1) = true
  key : ∀ e ∈ s.committed, s.mem (.key e.1) = e.2.key
  obj : ∀ e ∈ s.committed, s.mem (.obj e.1) = e.2

theorem mem_nodes {s : State} {p : Ptr} : p ∈ s.nodes ↔ ∃ e ∈ s.committed, e.1 = p := by
  simp [State.nodes]

/-- A node in front of the list, linked both ways. -/
theorem linked_inserted {s : State} (h : Keeps s) {p : Ptr} {entry : Tuple} {mem : Mem}
    (hlive : s.mem (.live p) = false) (hmem : Inserted s.mem p entry mem) :
    DoublyLinked (nextIn mem) (prevIn mem) (mem .head) (mem .tail) (p :: s.nodes) := by
  have hp : p ∉ s.nodes := by
    intro hmem
    obtain ⟨e, he, rfl⟩ := mem_nodes.mp hmem
    exact absurd (h.live e he) (by simp [hlive])
  have hhead := h.linked.head_eq
  have hlinked := h.linked
  rw [hmem.head, hmem.tail]
  cases hnodes : s.nodes with
  | nil =>
    rw [hnodes, List.head?_nil] at hhead
    rw [if_pos hhead]
    apply DoublyLinked.singleton
    · rw [nextIn, hmem.next, if_pos rfl, hhead]
    · rw [prevIn, hmem.prev, hhead, if_neg (Option.some_ne_none p).symm, if_pos rfl]
  | cons oldHead rest =>
    rw [hnodes] at hhead hp hlinked
    rw [List.head?_cons] at hhead
    rw [if_neg (by simp [hhead])]
    apply hlinked.prepend hp
    · intro q hq
      have hne : q ≠ p := fun heq => hp (heq ▸ hq)
      rw [nextIn, hmem.next, if_neg hne, nextIn]
    · intro q hq
      have hne : q ≠ p := fun heq => hp (List.mem_cons_of_mem _ (heq ▸ hq))
      have hold : oldHead ≠ q := by
        rintro rfl
        exact (List.nodup_cons.mp hlinked.nodup).1 hq
      rw [prevIn, hmem.prev, hhead, if_neg (by simpa using hold), if_neg hne, prevIn]
    · rw [nextIn, hmem.next, if_pos rfl, hhead]
    · rw [prevIn, hmem.prev, hhead, if_pos rfl]
    · have hold : oldHead ≠ p := fun heq => hp (heq ▸ List.mem_cons_self)
      rw [prevIn, hmem.prev, hhead, if_neg (by simpa using hold), if_pos rfl]

/-- **A transaction keeps the list well formed.** -/
theorem keeps_step {s : State} (h : Keeps s) (t : Transaction) : Keeps (step s t) := by
  rcases step_cases s t with heq | ⟨p, hlive, hmem, hcommitted⟩
  · rwa [heq]
  have hne : ∀ e ∈ s.committed, e.1 ≠ p := by
    rintro e he rfl
    exact absurd (h.live e he) (by simp [hlive])
  have hnodes : (step s t).nodes = p :: s.nodes := by
    simp [State.nodes, hcommitted]
  refine ⟨?_, ?_, ?_, ?_⟩
  · rw [hnodes]
    exact linked_inserted h hlive hmem
  all_goals
    rw [hcommitted]
    intro e he
    rcases List.mem_append.mp he with he | he
  · rw [hmem.live, if_neg (hne e he), h.live e he]
  · obtain rfl := List.mem_singleton.mp he
    rw [hmem.live, if_pos rfl]
  · rw [hmem.key, if_neg (hne e he), h.key e he]
  · obtain rfl := List.mem_singleton.mp he
    rw [hmem.key, if_pos rfl]
  · rw [hmem.obj, if_neg (hne e he), h.obj e he]
  · obtain rfl := List.mem_singleton.mp he
    rw [hmem.obj, if_pos rfl]

theorem keeps_empty (rest : Mem) : Keeps { mem := persistentList rest } := by
  have hhead : persistentList rest .head = none := by simp [persistentList]
  have htail : persistentList rest .tail = none := by simp [persistentList]
  refine ⟨?_, by simp, by simp, by simp⟩
  change DoublyLinked _ _ (persistentList rest .head) (persistentList rest .tail) []
  rw [hhead, htail]
  exact DoublyLinked.nil

theorem keeps_run (rest : Mem) (ts : List Transaction) : Keeps (run rest ts) := by
  have hthroughout : Throughout step Keeps { mem := persistentList rest } ts :=
    throughout_of_allSteps (P := fun _ _ => True) (fun s t hs _ => keeps_step hs t)
      (keeps_empty rest) (allSteps_const.mpr fun _ _ => trivial)
  exact hthroughout.last

/-- **A well-formed doubly linked list** of the committed entries. -/
structure WellLinked (mem : Mem) (committed : List (Ptr × Tuple)) : Prop where
  head_iff_tail : mem .head = none ↔ mem .tail = none
  nodup : (committed.map Prod.fst).Nodup
  next : Path (nextIn mem) (mem .head) (committed.map Prod.fst).reverse none
  next_end : (committed.map Prod.fst).reverse.getLast? = mem .tail
  prev : Path (prevIn mem) (mem .tail) (committed.map Prod.fst) none
  prev_end : (committed.map Prod.fst).getLast? = mem .head
  obj : ∀ e ∈ committed, mem (.obj e.1) = e.2
  key : ∀ e ∈ committed, mem (.key e.1) = (mem (.obj e.1)).key

theorem Keeps.wellLinked {s : State} (h : Keeps s) : WellLinked s.mem s.committed where
  head_iff_tail := h.linked.head_eq_none_iff.trans h.linked.tail_eq_none_iff.symm
  nodup := List.nodup_reverse.mp h.linked.nodup
  next := h.linked.forward
  next_end := h.linked.tail_eq.symm
  prev := by
    have hbackward := h.linked.backward
    rwa [State.nodes, List.reverse_reverse] at hbackward
  prev_end := by rw [h.linked.head_eq, State.nodes, List.head?_reverse]
  obj := h.obj
  key e he := by rw [h.key e he, h.obj e he]

/-- **The list after any transactions** is well formed, whichever of them aborted,
    at whichever call. -/
theorem wellLinked_run (rest : Mem) (ts : List Transaction) :
    WellLinked (run rest ts).mem (run rest ts).committed :=
  (keeps_run rest ts).wellLinked

/-! ### The flush loop -/

/-- The loop of `FlushToDisk`: the tuples written from `current` on, if it ends in so
    many turns. -/
def flushLoop (mem : Mem) : Nat → Option Ptr → Option (List Tuple)
  | _, none => some []
  | 0, some _ => none
  | fuel + 1, some current =>
    (flushLoop mem fuel (mem (.next current))).map fun tuples => mem (.obj current) :: tuples

theorem flushLoop_eq (mem : Mem) (fuel : Nat) (current : Option Ptr) :
    flushLoop mem fuel current =
      (follow (nextIn mem) fuel current).map fun nodes => nodes.map fun p => mem (.obj p) := by
  induction fuel generalizing current with
  | zero => cases current <;> rfl
  | succ fuel ih =>
    cases current with
    | none => rfl
    | some p => simp [flushLoop, follow, ih, nextIn, Function.comp_def]

/-- **The flush loop ends** exactly when it has a turn for each committed entry, and it
    has written these, the last one first. -/
theorem flushLoop_run_iff (rest : Mem) (ts : List Transaction) {fuel : Nat} {tuples : List Tuple} :
    flushLoop (run rest ts).mem fuel ((run rest ts).mem .head) = some tuples ↔
      (run rest ts).committed.length ≤ fuel ∧
        tuples = ((run rest ts).committed.map Prod.snd).reverse := by
  have hlist := (keeps_run rest ts).wellLinked
  have hlength : ((run rest ts).committed.map Prod.fst).reverse.length =
      (run rest ts).committed.length := by simp
  have hobjs : (run rest ts).committed.map ((fun p => (run rest ts).mem (.obj p)) ∘ Prod.fst) =
      (run rest ts).committed.map Prod.snd :=
    List.map_congr_left hlist.obj
  have hwritten : ((run rest ts).committed.map Prod.fst).reverse.map
      (fun p => (run rest ts).mem (.obj p)) = ((run rest ts).committed.map Prod.snd).reverse := by
    rw [List.map_reverse, List.map_map, hobjs]
  rw [flushLoop_eq, Option.map_eq_some_iff]
  simp only [follow_eq_some_iff hlist.next, hlength, ← hwritten]
  constructor
  · rintro ⟨nodes, ⟨hfuel, rfl⟩, rfl⟩
    exact ⟨hfuel, rfl⟩
  · rintro ⟨hfuel, rfl⟩
    exact ⟨_, ⟨hfuel, rfl⟩, rfl⟩

/-! ### The list of one pool as a heap -/

/-- The memory holds the nodes of the heap, and no others are live. -/
structure Represents (mem : Mem) (l : ListPool.PersistentList) : Prop where
  head : mem .head = l.head
  tail : mem .tail = l.tail
  free : ∀ p, l.heap.length ≤ p → mem (.live p) = false
  node : ∀ (p : Ptr) (n : ListNode), l.heap[p]? = some n →
    ({ next := mem (.next p), prev := mem (.prev p), key := mem (.key p), obj := mem (.obj p) } :
      ListNode) = n

theorem represents_inserted {l : ListPool.PersistentList} (hl : l.WellFormed) {mem mem' : Mem}
    {entry : Tuple} (h : Represents mem l) (hmem : Inserted mem l.heap.length entry mem') :
    Represents mem' (l.insert entry).2 := by
  obtain ⟨-, hhead, htail, hlength, -⟩ := ListPool.PersistentList.insert_spec hl entry
  have hold : ∀ p, mem .head = some p ↔ p + 1 = l.heap.length := by
    intro p
    rw [h.head, hl.head]
    cases l.heap.length with
    | zero => simp [ListPool.PersistentList.older]
    | succ m => simp [ListPool.PersistentList.older, eq_comm]
  refine ⟨?_, ?_, ?_, ?_⟩
  · rw [hmem.head, hhead]
  · rw [hmem.tail, htail, h.head, hl.head, h.tail, hl.tail]
    cases l.heap.length with
    | zero => rfl
    | succ m => rfl
  · intro p hp
    rw [hlength] at hp
    have hne : p ≠ l.heap.length := Nat.ne_of_gt hp
    rw [hmem.live, if_neg hne, h.free p (Nat.le_of_succ_le hp)]
  · intro p n hn
    rcases ListPool.PersistentList.insert_cases hl entry hn with
      ⟨rfl, rfl⟩ | ⟨m, hm, hlt, hnext, hkey, hobj, hprev⟩
    · have hlast : ¬l.head = some l.heap.length := by
        rw [← h.head, hold]
        exact Nat.succ_ne_self _
      simp [hmem.next, hmem.prev, hmem.key, hmem.obj, hlast, h.head]
    · have hne : p ≠ l.heap.length := Nat.ne_of_lt hlt
      obtain rfl := h.node p m hm
      obtain ⟨next, prev, key, obj⟩ := n
      obtain rfl : next = mem (.next p) := hnext
      obtain rfl : key = mem (.key p) := hkey
      obtain rfl : obj = mem (.obj p) := hobj
      obtain rfl : prev = _ := hprev
      simp [hmem.next, hmem.prev, hmem.key, hmem.obj, hold, hne]

/-- **What a transaction that commits makes of the heap** is what `Insert` makes of it,
    when the allocator gives places in order. -/
theorem represents_commit {l : ListPool.PersistentList} (hl : l.WellFormed) {mem : Mem}
    (h : Represents mem l) (entry : Tuple) (fresh : UInt64 × Tuple) :
    ∃ mem', Transaction.exec ⟨entry, some l.heap.length, fresh, none⟩ mem =
        (some (l.insert entry).1, mem') ∧
      Represents mem' (l.insert entry).2 := by
  have hlive := h.free l.heap.length le_rfl
  refine ⟨_, ?_, represents_inserted hl h (inserted_insertTx mem l.heap.length fresh entry)⟩
  rw [(ListPool.PersistentList.insert_spec hl entry).1]
  exact execTx_none (exec_insert hlive fresh entry)

end NvrecYcsb.ListTransactions
