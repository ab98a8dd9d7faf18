/-
  NvrecYcsb/NvRecClient.lean
  ==========================
  **The client keeps the invariant.**

  A step of `PersistRaw` commits a tuple, aborts, waits, hands its pool over, or
  makes the next pool (`clientStep_moved`).  A pool is made in the same way by
  the constructor, so a restart is one more case of the lemmas about making a
  pool.  `inv_step` is the invariant over every action.
-/
import NvrecYcsb.NvRecInvariant

namespace NvrecYcsb.NvRec

open CppRuntime RecoveryDefs RecoveryInterface ListPool PersistentList NVRecEngine

namespace NVRecEngine

variable {s : NVRecEngine} {i : Nat}

/-! ### Steps of the client -/

def inserted (s : NVRecEngine) (value : Tuple) : NVRecEngine :=
  { s.setList ((s.pools s.pool).list.insert value).2 with
    lookupTable := Function.update s.lookupTable value.key
      (some ((s.pools s.pool).list.insert value).1)
    client := .idle (.returned .kSuccess) }

def updated (s : NVRecEngine) (ptr : Ptr) (value : Tuple) : NVRecEngine :=
  { s.setList ((s.pools s.pool).list.setObj ptr value) with
    client := .idle (.returned .kSuccess) }

/-- A pool opened or created under `path`. -/
inductive PoolMade (s : NVRecEngine) (path : Str) : NVRecEngine → Prop
  | opened (id : PoolId) (hfile : (path, id) ∈ s.files) :
      PoolMade s path
        { s with
          pools := Function.update s.pools id { s.pools id with isOpen := true }
          pool := id }
  | created (hnone : ∀ f ∈ s.files, f.1 ≠ path) :
      PoolMade s path
        { s with
          pools := Function.update s.pools s.created {}
          created := s.created + 1
          files := s.files ++ [(path, s.created)]
          pool := s.created }

theorem mem_of_lookup {files : List (Str × PoolId)} {path : Str} {id : PoolId}
    (h : files.lookup path = some id) : (path, id) ∈ files := by
  induction files with
  | nil => cases h
  | cons g files ih =>
    rw [List.lookup_cons] at h
    by_cases hg : path = g.1
    · subst hg
      rw [beq_self_eq_true] at h
      obtain rfl := Option.some.inj h
      exact List.mem_cons_self
    · rw [beq_false_of_ne hg] at h
      exact List.mem_cons_of_mem _ (ih h)

theorem poolMade (s : NVRecEngine) {env : ClientEnv} (henv : env.opens = true) (path : Str) :
    ∃ s', s.makePersistentListPool env path = some s' ∧ PoolMade s path s' := by
  rw [makePersistentListPool, if_pos henv]
  cases hlookup : s.files.lookup path with
  | some id => exact ⟨_, rfl, .opened id (mem_of_lookup hlookup)⟩
  | none =>
    refine ⟨_, rfl, .created fun f hf heq => ?_⟩
    have hsome := lookup_isSome_of_mem hf
    rw [heq, hlookup] at hsome
    cases hsome

/-- What a step of the client can do while pools can be opened: the state after
    it and the tuple it commits. -/
inductive ClientMoved (s : NVRecEngine) : Option Tuple → NVRecEngine → Prop
  | stay : ClientMoved s none s
  | insert (value : Tuple) (hpc : s.client = .transacting value)
      (hnew : s.lookupTable value.key = none) : ClientMoved s (some value) (s.inserted value)
  | update (value : Tuple) (ptr : Ptr) (hpc : s.client = .transacting value)
      (hptr : s.lookupTable value.key = some ptr) :
      ClientMoved s (some value) (s.updated ptr value)
  | abort (value : Tuple) (hpc : s.client = .transacting value) :
      ClientMoved s none { s with client := .waiting value }
  | join (value : Tuple) (hpc : s.client = .waiting value)
      (hfinished : ∀ i < s.launched, (s.flushes i).pc.isFinished = true) :
      ClientMoved s none { s with flushResult := none, client := .launching value }
  | launch (value : Tuple) (hpc : s.client = .launching value) :
      ClientMoved s none (s.launchFlush value)
  | next (value : Tuple) (hpc : s.client = .opening value) (s' : NVRecEngine)
      (hmade : { s with poolCounter := s.poolCounter + 1 }.PoolMade
        (poolPath (s.poolCounter + 1)) s') :
      ClientMoved s none { s' with lookupTable := fun _ => none, client := .transacting value }

theorem transact_moved (h : s.Usable) {value : Tuple} (hpc : s.client = .transacting value)
    (env : ClientEnv) :
    ClientMoved s (if env.commits = true then some value else none) (s.transact env value) := by
  have hopening : ¬s.Opening := by
    rintro ⟨v, hv⟩
    rw [hpc] at hv
    cases hv
  have hclosed : ¬(s.pools s.pool).isOpen = false := by
    rw [(h.ownership.current hopening).isOpen]
    exact Bool.noConfusion
  rw [transact, if_neg hclosed]
  by_cases hcommits : env.commits = true
  · rw [if_pos hcommits, if_pos hcommits]
    cases hlookup : s.lookupTable value.key with
    | none => exact .insert value hpc hlookup
    | some ptr => exact .update value ptr hpc hlookup
  · rw [if_neg hcommits, if_neg hcommits]
    exact .abort value hpc

theorem awaitFlush_of_unfinished {j : Nat} (hfuture : s.flushResult = some j)
    (hpc : (s.flushes j).pc.isFinished = false) (value : Tuple) : s.awaitFlush value = s := by
  rw [awaitFlush, hfuture]
  cases hpcj : (s.flushes j).pc with
  | finished r => rw [hpcj] at hpc; cases hpc
  | starting => simp only [hpcj]
  | reading current => simp only [hpcj]
  | writing p t => simp only [hpcj]
  | syncing => simp only [hpcj]
  | closing => simp only [hpcj]
  | unlinking => simp only [hpcj]

theorem awaitFlush_moved (h : s.Usable) {value : Tuple} (hpc : s.client = .waiting value) :
    ClientMoved s none (s.awaitFlush value) := by
  cases hfuture : s.flushResult with
  | none =>
    have hjoin := ClientMoved.join value hpc (h.ownership.finished_of_future hfuture)
    rw [awaitFlush, hfuture]
    exact hjoin
  | some j =>
    have hj := h.ownership.future j hfuture
    cases hfin : (s.flushes j).pc.isFinished with
    | true =>
      rw [awaitFlush, hfuture]
      simp only [(h.ended j hj hfin).result]
      exact .join value hpc (h.ownership.finished_of_last hfuture hfin)
    | false =>
      rw [awaitFlush_of_unfinished hfuture hfin]
      exact .stay

theorem openNextPool_made (s : NVRecEngine) {env : ClientEnv} (hopens : env.opens = true)
    (value : Tuple) :
    ∃ s', { s with poolCounter := s.poolCounter + 1 }.PoolMade (poolPath (s.poolCounter + 1)) s' ∧
      s.openNextPool env value =
        { s' with lookupTable := fun _ => none, client := .transacting value } := by
  obtain ⟨s', hs', hmade⟩ := poolMade { s with poolCounter := s.poolCounter + 1 } hopens
    (poolPath (s.poolCounter + 1))
  refine ⟨s', hmade, ?_⟩
  simp only [openNextPool, hs']

/-- **Inversion of a client step**, while pools can be opened. -/
theorem clientStep_moved (h : s.Usable) {env : ClientEnv} (hok : (Tick.client env).Ok) :
    ClientMoved s (commits s (.tick (.client env))) (s.clientStep env) := by
  rw [clientStep, commits]
  cases hpc : s.client with
  | idle r => exact .stay
  | transacting value =>
    have hopening : ¬s.Opening := by
      rintro ⟨v, hv⟩
      rw [hpc] at hv
      cases hv
    have hmoved := transact_moved h hpc env
    simp only [(h.ownership.current hopening).isOpen, true_and]
    exact hmoved
  | waiting value => exact awaitFlush_moved h hpc
  | launching value => exact .launch value hpc
  | opening value =>
    obtain ⟨s', hmade, hs'⟩ := openNextPool_made s hok value
    simp only [hs']
    exact .next value hpc s' hmade

/-- The state after a commit: another list in the current pool. -/
def committed (s : NVRecEngine) (list : PersistentList) (lookupTable : UInt64 → Option Ptr) :
    NVRecEngine :=
  { s.setList list with
    lookupTable := lookupTable
    client := .idle (.returned .kSuccess) }

section Committed

variable {list : PersistentList} {lookupTable : UInt64 → Option Ptr}

theorem committed_pools_ne {id : PoolId} (h : id ≠ s.pool) :
    (s.committed list lookupTable).pools id = s.pools id := by
  simp [committed, setList, h]

theorem committed_pool : (s.committed list lookupTable).pools s.pool =
    { s.pools s.pool with list := list } := by
  simp [committed, setList]

theorem committed_tuplesOf_ne {id : PoolId} (h : id ≠ s.pool) :
    (s.committed list lookupTable).tuplesOf id = s.tuplesOf id := by
  rw [tuplesOf, committed_pools_ne h, tuplesOf]

theorem committed_tuplesOf_pool : (s.committed list lookupTable).tuplesOf s.pool = list.tuples := by
  rw [tuplesOf, committed_pool]

theorem committed_handed (hown : s.pool ∉ s.handedPools) :
    (s.committed list lookupTable).handed = s.handed := by
  refine List.flatMap_congr fun id hid => committed_tuplesOf_ne ?_
  rintro rfl
  exact hown hid

theorem committed_flushList (hown : s.pool ∉ s.handedPools) (hi : i < s.launched) :
    (s.committed list lookupTable).flushList i = s.flushList i := by
  have hne : (s.flushes i).pool ≠ s.pool := fun heq => hown (heq ▸ flushes_mem_handedPools hi)
  show ((s.committed list lookupTable).pools (s.flushes i).pool).list = _
  rw [committed_pools_ne hne, flushList]

theorem ownership_committed (h : s.Ownership) (hopening : ¬s.Opening) (hlist : list.WellFormed) :
    (s.committed list lookupTable).Ownership := by
  have hcur := h.current hopening
  have hidle : ¬(s.committed list lookupTable).Opening := by
    rintro ⟨v, hv⟩
    cases hv
  refine ⟨fun id => ?_, h.paths, h.ids, h.known, h.handedKnown, fun j hj hfin => ?_, h.future,
    fun v hv => (by cases hv), fun _ => ⟨hcur.file, ?_, hcur.own⟩⟩
  · by_cases hid : id = s.pool
    · subst hid
      rw [committed_pool]
      exact hlist
    · rw [committed_pools_ne hid]
      exact h.lists id
  · have hpend := h.pending j hj hfin
    refine ⟨hpend.last, hpend.future, hpend.file, fun ho => absurd ho hidle, fun hpc => ?_⟩
    have hne : (s.flushes j).pool ≠ s.pool := fun heq =>
      hcur.own (heq ▸ flushes_mem_handedPools hj)
    show ((s.committed list lookupTable).pools (s.flushes j).pool).isOpen = true
    rw [committed_pools_ne hne]
    exact hpend.isOpen hpc
  · show ((s.committed list lookupTable).pools s.pool).isOpen = true
    rw [committed_pool]
    exact hcur.isOpen

theorem usable_committed (h : s.Usable) (hopening : ¬s.Opening) (hlist : list.WellFormed)
    (hlookup : ∀ k p, lookupTable k = some p → ∃ n, list.heap[p]? = some n ∧ n.obj.key = k) :
    (s.committed list lookupTable).Usable := by
  have hcur := h.ownership.current hopening
  refine ⟨ownership_committed h.ownership hopening hlist, fun j hj => ?_, fun j hj hfin => ?_,
    fun k p hk => ?_, fun ⟨v, hv⟩ => (by cases hv)⟩
  · rw [committed_flushList hcur.own hj]
    exact h.onList j hj
  · have hend := h.ended j hj hfin
    exact ⟨hend.result, hend.unlinked⟩
  · show ∃ n, ((s.committed list lookupTable).pools s.pool).list.heap[p]? = some n ∧ _
    rw [committed_pool]
    exact hlookup k p hk

theorem inv_committed (h : s.Inv) (hopening : ¬s.Opening) (hlist : list.WellFormed)
    (hlookup : ∀ k p, lookupTable k = some p → ∃ n, list.heap[p]? = some n ∧ n.obj.key = k) :
    (s.committed list lookupTable).Inv := by
  refine (usable_committed h.usable hopening hlist hlookup).inv ?_
  have hcur := h.current hopening
  obtain ⟨ds, hds, hleft⟩ := h.disk
  refine ⟨ds, hds, ?_⟩
  rw [committed_handed hcur.own, ← hleft, remaining, remaining]
  cases hlaunched : s.launched with
  | zero => rw [show (s.committed list lookupTable).launched = 0 from hlaunched]
  | succ j =>
    rw [show (s.committed list lookupTable).launched = j + 1 from hlaunched]
    show ds ++ leftOf ((s.committed list lookupTable).flushList j) (s.flushes j).pc = _
    rw [committed_flushList hcur.own (by omega)]

end Committed

theorem not_opening_of_client {c : ClientPc} (hpc : s.client = c)
    (hc : c.isOpening = false) : ¬s.Opening := by
  rintro ⟨v, hv⟩
  obtain rfl : ClientPc.opening v = c := hv.symm.trans hpc
  cases hc

/-- The table after an insert names nodes of the list by their keys. -/
theorem lookup_inserted (h : s.Usable) (value : Tuple) (k : UInt64) (p : Ptr)
    (hk : Function.update s.lookupTable value.key
      (some ((s.pools s.pool).list.insert value).1) k = some p) :
    ∃ n, ((s.pools s.pool).list.insert value).2.heap[p]? = some n ∧ n.obj.key = k := by
  obtain ⟨hptr, -, -, hlen, hheap⟩ := insert_spec (h.ownership.lists s.pool) value
  by_cases hkey : k = value.key
  · subst hkey
    rw [Function.update_self, hptr] at hk
    obtain rfl := Option.some.inj hk
    rw [hheap, if_pos rfl]
    exact ⟨_, rfl, rfl⟩
  · rw [Function.update_of_ne hkey] at hk
    obtain ⟨n, hn, hnkey⟩ := h.lookup k p hk
    have hne : p ≠ (s.pools s.pool).list.heap.length :=
      Nat.ne_of_lt (List.getElem?_eq_some_iff.mp hn).1
    rw [hheap, if_neg hne, hn]
    refine ⟨_, rfl, ?_⟩
    rw [← hnkey]
    by_cases hold : p + 1 = (s.pools s.pool).list.heap.length <;> simp [hold]

/-- The nodes keep their keys when a tuple is replaced by one of its key. -/
theorem lookup_updated (h : s.Usable) {value : Tuple} {ptr : Ptr}
    (hptr : s.lookupTable value.key = some ptr) (k : UInt64) (p : Ptr)
    (hk : s.lookupTable k = some p) :
    ∃ n, ((s.pools s.pool).list.setObj ptr value).heap[p]? = some n ∧ n.obj.key = k := by
  obtain ⟨m, hm, hmkey⟩ := h.lookup _ _ hptr
  obtain ⟨n, hn, hnkey⟩ := h.lookup k p hk
  rw [setObj, assign, List.getElem?_modify, hn]
  refine ⟨_, rfl, ?_⟩
  by_cases hp : ptr = p
  · subst hp
    rw [hm] at hn
    obtain rfl := Option.some.inj hn
    simp [← hnkey, hmkey]
  · simp [hp, hnkey]

theorem usable_inserted (h : s.Usable) {value : Tuple} (hpc : s.client = .transacting value) :
    (s.inserted value).Usable :=
  usable_committed h (not_opening_of_client hpc rfl)
    (wellFormed_insert (h.ownership.lists s.pool) value) (lookup_inserted h value)

theorem inv_inserted (h : s.Inv) {value : Tuple} (hpc : s.client = .transacting value) :
    (s.inserted value).Inv :=
  inv_committed h (not_opening_of_client hpc rfl) (wellFormed_insert (h.lists s.pool) value)
    (lookup_inserted h.usable value)

theorem wellFormed_updated (h : s.Usable) {value : Tuple} {ptr : Ptr}
    (hptr : s.lookupTable value.key = some ptr) :
    ((s.pools s.pool).list.setObj ptr value).WellFormed := by
  obtain ⟨m, hm, hmkey⟩ := h.lookup _ _ hptr
  exact wellFormed_setObj (h.ownership.lists s.pool) hm hmkey

theorem usable_updated (h : s.Usable) {value : Tuple} {ptr : Ptr}
    (hpc : s.client = .transacting value) (hptr : s.lookupTable value.key = some ptr) :
    (s.updated ptr value).Usable :=
  usable_committed h (not_opening_of_client hpc rfl) (wellFormed_updated h hptr)
    (lookup_updated h hptr)

theorem inv_updated (h : s.Inv) {value : Tuple} {ptr : Ptr} (hpc : s.client = .transacting value)
    (hptr : s.lookupTable value.key = some ptr) : (s.updated ptr value).Inv :=
  inv_committed h (not_opening_of_client hpc rfl) (wellFormed_updated h.usable hptr)
    (lookup_updated h.usable hptr)

section SetClient

variable {c : ClientPc} {future : Option Nat} (hopening : ¬s.Opening) (hc : c.isOpening = false)
  (hfuture : future = s.flushResult ∨
    (future = none ∧ ∀ i < s.launched, (s.flushes i).pc.isFinished = true))
  (hlaunching : ∀ v, c = .launching v → future = none)
include hopening hc hfuture hlaunching

theorem ownership_setClient (h : s.Ownership) :
    ({ s with flushResult := future, client := c } : NVRecEngine).Ownership := by
  have hidle : ¬({ s with flushResult := future, client := c } : NVRecEngine).Opening :=
    not_opening_of_client rfl hc
  have hcur := h.current hopening
  refine ⟨h.lists, h.paths, h.ids, h.known, h.handedKnown, fun j hj hfin => ?_, fun j hj => ?_,
    fun v hv => hlaunching v hv, fun _ => ⟨hcur.file, hcur.isOpen, hcur.own⟩⟩
  · have hpend := h.pending j hj hfin
    refine ⟨hpend.last, ?_, hpend.file, fun ho => absurd ho hidle, hpend.isOpen⟩
    rcases hfuture with rfl | ⟨-, hall⟩
    · exact hpend.future
    · rw [hall j hj] at hfin
      cases hfin
  · change future = some j at hj
    rcases hfuture with rfl | ⟨rfl, -⟩
    · exact h.future j hj
    · cases hj

theorem usable_setClient (h : s.Usable) :
    ({ s with flushResult := future, client := c } : NVRecEngine).Usable := by
  have hidle : ¬({ s with flushResult := future, client := c } : NVRecEngine).Opening :=
    not_opening_of_client rfl hc
  exact ⟨ownership_setClient hopening hc hfuture hlaunching h.ownership, h.onList,
    fun j hj hfin => ⟨(h.ended j hj hfin).result, (h.ended j hj hfin).unlinked⟩, h.lookup,
    fun ho => absurd ho hidle⟩

theorem inv_setClient (h : s.Inv) :
    ({ s with flushResult := future, client := c } : NVRecEngine).Inv :=
  (usable_setClient hopening hc hfuture hlaunching h.usable).inv h.disk

end SetClient

theorem leftOf_of_finished {pc : FlushPc} (list : PersistentList)
    (h : pc.isFinished = true) : leftOf list pc = [] := by
  cases pc with
  | finished r => rfl
  | starting => cases h
  | reading current => cases h
  | writing p t => cases h
  | syncing => rfl
  | closing => rfl
  | unlinking => rfl

theorem remaining_of_finished (h : ∀ i < s.launched, (s.flushes i).pc.isFinished = true) :
    s.remaining = [] := by
  rw [remaining]
  cases hlaunched : s.launched with
  | zero => rfl
  | succ i => exact leftOf_of_finished _ (h i (by omega))

section Launch

variable {value : Tuple}

theorem launchFlush_flushes_of_lt {j : Nat} (hj : j < s.launched) :
    (s.launchFlush value).flushes j = s.flushes j := by
  simp [launchFlush, Nat.ne_of_lt hj]

theorem launchFlush_flushes_last : (s.launchFlush value).flushes s.launched =
    ⟨poolPath s.poolCounter, s.pool, .starting⟩ := by
  simp [launchFlush]

theorem launchFlush_handedPools :
    (s.launchFlush value).handedPools = s.handedPools ++ [s.pool] := by
  show (List.range (s.launched + 1)).map _ = _
  rw [List.range_succ, List.map_append, List.map_singleton, launchFlush_flushes_last]
  congr 1
  exact List.map_congr_left fun j hj => by
    rw [launchFlush_flushes_of_lt (List.mem_range.mp hj)]

theorem launchFlush_handed : (s.launchFlush value).handed = s.handed ++ s.tuplesOf s.pool := by
  rw [handed, launchFlush_handedPools, List.flatMap_append, List.flatMap_singleton]
  rfl

theorem lt_or_eq_of_launchFlush {j : Nat} (hj : j < (s.launchFlush value).launched) :
    j < s.launched ∨ j = s.launched := Nat.lt_succ_iff_lt_or_eq.mp hj

theorem ownership_launchFlush (h : s.Ownership) (hpc : s.client = .launching value) :
    (s.launchFlush value).Ownership := by
  have hcur := h.current (not_opening_of_client hpc rfl)
  have hfinished := h.finished_of_future (h.launching value hpc)
  refine ⟨h.lists, h.paths, h.ids, h.known, ?_, fun j hj hfin => ?_, fun j hj => ?_,
    fun v hv => (by cases hv), fun ho => absurd ⟨value, rfl⟩ ho⟩
  · rw [launchFlush_handedPools]
    intro id hid
    rcases List.mem_append.mp hid with hid | hid
    · exact h.handedKnown id hid
    · rw [List.mem_singleton.mp hid]
      exact h.known _ hcur.file
  · rcases lt_or_eq_of_launchFlush hj with hj | rfl
    · rw [launchFlush_flushes_of_lt hj, hfinished j hj] at hfin
      cases hfin
    · refine ⟨rfl, rfl, ?_, fun _ => ?_, fun _ => ?_⟩
      · rw [launchFlush_flushes_last]
        exact hcur.file
      · rw [launchFlush_flushes_last]
        rfl
      · rw [launchFlush_flushes_last]
        exact hcur.isOpen
  · obtain rfl := Option.some.inj hj
    exact Nat.lt_succ_self _

theorem usable_launchFlush (h : s.Usable) (hpc : s.client = .launching value) :
    (s.launchFlush value).Usable := by
  have hfinished := h.ownership.finished_of_future (h.ownership.launching value hpc)
  have hlast : (s.launchFlush value).flushes s.launched =
    ⟨poolPath s.poolCounter, s.pool, .starting⟩ := launchFlush_flushes_last
  refine ⟨ownership_launchFlush h.ownership hpc, fun j hj => ?_, fun j hj hfin => ?_,
    fun k p hk => (by cases hk), fun _ _ => rfl⟩
  · rcases lt_or_eq_of_launchFlush hj with hj | rfl
    · rw [flushList, launchFlush_flushes_of_lt hj]
      exact h.onList j hj
    · rw [hlast]
      trivial
  · rcases lt_or_eq_of_launchFlush hj with hj | rfl
    · have hend := h.ended j hj (hfinished j hj)
      exact ⟨by rw [launchFlush_flushes_of_lt hj]; exact hend.result, by
        rw [launchFlush_flushes_of_lt hj]; exact hend.unlinked⟩
    · rw [hlast] at hfin
      cases hfin

theorem inv_launchFlush (h : s.Inv) (hpc : s.client = .launching value) :
    (s.launchFlush value).Inv := by
  have hfinished := h.ownership.finished_of_future (h.launching value hpc)
  have hlast : (s.launchFlush value).flushes s.launched =
    ⟨poolPath s.poolCounter, s.pool, .starting⟩ := launchFlush_flushes_last
  refine (usable_launchFlush h.usable hpc).inv ?_
  obtain ⟨ds, hds, hleft⟩ := h.disk
  rw [remaining_of_finished hfinished, List.append_nil] at hleft
  refine ⟨ds, hds, ?_⟩
  rw [remaining_of_last (s := s.launchFlush value) (i := s.launched) rfl, hlast,
    launchFlush_handed, hleft, flushList, hlast]
  rfl

end Launch

/-- What the devices hold is the same in both states, up to pools being open. -/
structure SameWorld (s base : NVRecEngine) : Prop where
  list : ∀ id, (base.pools id).list = (s.pools id).list
  created : base.created = s.created
  files : base.files = s.files
  diskLog : base.diskLog = s.diskLog
  flushes : base.flushes = s.flushes
  launched : base.launched = s.launched

/-- Counting the next pool moves nothing. -/
theorem SameWorld.counted (s : NVRecEngine) :
    s.SameWorld { s with poolCounter := s.poolCounter + 1 } :=
  ⟨fun _ => rfl, rfl, rfl, rfl, rfl, rfl⟩

section PoolMade

variable {base s' : NVRecEngine} {path : Str} {c : ClientPc}

/-- The engine after it took a new current pool, with an empty lookup table. -/
def started (s : NVRecEngine) (c : ClientPc) : NVRecEngine :=
  { s with lookupTable := fun _ => none, client := c }

theorem poolMade_list (hbase : s.SameWorld base) (hmade : base.PoolMade path s')
    {id : PoolId} (hid : id < s.created) : (s'.pools id).list = (s.pools id).list := by
  rw [← hbase.list id]
  cases hmade with
  | opened new hfile =>
    by_cases hne : id = new
    · subst hne
      simp
    · simp [hne]
  | created hnone =>
    have hne : id ≠ base.created := by
      rw [hbase.created]
      exact Nat.ne_of_lt hid
    simp [hne]

/-- Making a pool closes none. -/
theorem poolMade_isOpen (hbase : s.SameWorld base) (hmade : base.PoolMade path s') {id : PoolId}
    (hid : id < s.created) (hopen : (base.pools id).isOpen = true) :
    (s'.pools id).isOpen = true := by
  cases hmade with
  | opened new hfile =>
    by_cases hne : id = new
    · subst hne
      simp
    · simpa [hne] using hopen
  | created hnone =>
    have hne : id ≠ base.created := by
      rw [hbase.created]
      exact Nat.ne_of_lt hid
    simpa [hne] using hopen

theorem poolMade_handedPools (hbase : s.SameWorld base) (hmade : base.PoolMade path s') :
    (s'.started c).handedPools = s.handedPools := by
  rw [handedPools, handedPools, ← hbase.flushes, ← hbase.launched]
  cases hmade <;> rfl

theorem poolMade_handed (h : s.Inv) (hbase : s.SameWorld base) (hmade : base.PoolMade path s') :
    (s'.started c).handed = s.handed := by
  rw [handed, poolMade_handedPools hbase hmade]
  refine List.flatMap_congr fun id hid => ?_
  show (s'.pools id).list.tuples = _
  rw [poolMade_list hbase hmade (h.handedKnown id hid), tuplesOf]

theorem poolMade_current (h : s.Usable) (hbase : s.SameWorld base) (hmade : base.PoolMade path s')
    (hpath : ∀ i < s.launched, (s.flushes i).pc.isFinished = false →
      (s.flushes i).poolPath ≠ path) :
    (path, s'.pool) ∈ s'.files ∧ (s'.pools s'.pool).isOpen = true ∧ s'.pool ∉ s.handedPools := by
  cases hmade with
  | opened id hfile =>
    rw [hbase.files] at hfile
    refine ⟨hbase.files ▸ hfile, by simp, fun hid => ?_⟩
    obtain ⟨j, hj, hpool⟩ := mem_handedPools.mp hid
    cases hfin : (s.flushes j).pc.isFinished with
    | true => exact (h.ended j hj hfin).unlinked _ hfile hpool.symm
    | false =>
      have hsame := h.ownership.file_of_pool (h.ownership.pending j hj hfin).file hfile hpool
      exact hpath j hj hfin (congrArg Prod.fst hsame)
  | created hnone =>
    refine ⟨by simp, by simp, fun hid => ?_⟩
    have hlt := h.ownership.handedKnown _ hid
    rw [← hbase.created] at hlt
    exact Nat.lt_irrefl _ hlt

theorem poolMade_wellFormed (h : s.Ownership) (hbase : s.SameWorld base)
    (hmade : base.PoolMade path s') (id : PoolId) : (s'.pools id).list.WellFormed := by
  have hlist := h.lists id
  rw [← hbase.list] at hlist
  cases hmade with
  | opened new hfile =>
    by_cases hne : id = new
    · subst hne
      simpa using hlist
    · simpa [hne] using hlist
  | created hnone =>
    by_cases hne : id = base.created
    · subst hne
      simpa using wellFormed_empty
    · simpa [hne] using hlist

/-- The files after a pool was made: those before, and one for a pool created. -/
structure MadeFiles (s s' : NVRecEngine) (path : Str) : Prop where
  paths : (s'.files.map Prod.fst).Nodup
  ids : (s'.files.map Prod.snd).Nodup
  known : ∀ f ∈ s'.files, f.2 < s'.created
  created : s.created ≤ s'.created
  old : ∀ f ∈ s.files, f ∈ s'.files
  new : ∀ f ∈ s'.files, f ∈ s.files ∨ f = (path, s.created)

theorem madeFiles (h : s.Ownership) (hbase : s.SameWorld base) (hmade : base.PoolMade path s') :
    s.MadeFiles s' path := by
  have hfiles := hbase.files
  have hcreated := hbase.created
  cases hmade with
  | opened id hfile =>
    refine ⟨?_, ?_, ?_, hcreated.ge, fun f hf => hfiles ▸ hf, fun f hf => Or.inl (hfiles ▸ hf)⟩
    · exact hfiles ▸ h.paths
    · exact hfiles ▸ h.ids
    · intro f hf
      rw [hfiles] at hf
      exact hcreated ▸ h.known f hf
  | created hnone =>
    rw [hfiles] at hnone
    have hnew : base.files ++ [(path, base.created)] = s.files ++ [(path, s.created)] := by
      rw [hfiles, hcreated]
    refine ⟨?_, ?_, fun f hf => ?_, ?_, fun f hf => ?_, fun f hf => ?_⟩
    · show ((base.files ++ [(path, base.created)]).map Prod.fst).Nodup
      rw [hnew, List.map_append, List.map_singleton]
      refine List.Nodup.append h.paths (List.nodup_singleton _) fun p hp hq => ?_
      obtain ⟨f, hf, rfl⟩ := List.mem_map.mp hp
      exact hnone f hf (List.mem_singleton.mp hq)
    · show ((base.files ++ [(path, base.created)]).map Prod.snd).Nodup
      rw [hnew, List.map_append, List.map_singleton]
      refine List.Nodup.append h.ids (List.nodup_singleton _) fun p hp hq => ?_
      obtain ⟨f, hf, rfl⟩ := List.mem_map.mp hp
      exact Nat.ne_of_lt (h.known f hf) (List.mem_singleton.mp hq)
    · change f ∈ base.files ++ [(path, base.created)] at hf
      show f.2 < base.created + 1
      rw [hnew] at hf
      rw [hcreated]
      rcases List.mem_append.mp hf with hf | hf
      · exact Nat.lt_succ_of_lt (h.known f hf)
      · rw [List.mem_singleton.mp hf]
        exact Nat.lt_succ_self _
    · show s.created ≤ base.created + 1
      omega
    · show f ∈ base.files ++ [(path, base.created)]
      rw [hnew]
      exact List.mem_append_left _ hf
    · change f ∈ base.files ++ [(path, base.created)] at hf
      rw [hnew] at hf
      exact (List.mem_append.mp hf).imp_right List.mem_singleton.mp

theorem poolMade_flushes (hbase : s.SameWorld base) (hmade : base.PoolMade path s') :
    (s'.started c).flushes = s.flushes := by
  rw [← hbase.flushes]
  cases hmade <;> rfl

theorem poolMade_launched (hbase : s.SameWorld base) (hmade : base.PoolMade path s') :
    (s'.started c).launched = s.launched := by
  rw [← hbase.launched]
  cases hmade <;> rfl

theorem ownership_poolMade (h : s.Ownership) (hbase : s.SameWorld base)
    (hmade : base.PoolMade path s')
    (hcur : (path, s'.pool) ∈ s'.files ∧ (s'.pools s'.pool).isOpen = true ∧
      s'.pool ∉ s.handedPools)
    (hcounter : path = poolPath base.poolCounter)
    (hfuture : (base.flushResult = s.flushResult ∧ base.pools = s.pools) ∨
      (base.flushResult = none ∧ ∀ i < s.launched, (s.flushes i).pc.isFinished = true))
    (hopening : c.isOpening = false) (hlaunching : ∀ v, c ≠ .launching v) :
    (s'.started c).Ownership := by
  have hpools := poolMade_handedPools (c := c) hbase hmade
  have hfiles := madeFiles h hbase hmade
  have hidle : ¬(s'.started c).Opening := not_opening_of_client rfl hopening
  have hflushes : (s'.started c).flushes = s.flushes := poolMade_flushes hbase hmade
  have hlaunched : (s'.started c).launched = s.launched := poolMade_launched hbase hmade
  have hfut : (s'.started c).flushResult = base.flushResult := by cases hmade <;> rfl
  have hcount : (s'.started c).poolCounter = base.poolCounter := by cases hmade <;> rfl
  refine ⟨fun id => poolMade_wellFormed h hbase hmade id, hfiles.paths, hfiles.ids, hfiles.known,
    fun id hid => ?_, fun i hi hfin => ?_, fun i hi => ?_, fun v hv => absurd hv (hlaunching v),
    fun _ => ⟨?_, hcur.2.1, ?_⟩⟩
  · rw [hpools] at hid
    exact Nat.lt_of_lt_of_le (h.handedKnown id hid) hfiles.created
  · rw [hlaunched] at hi
    rw [hflushes] at hfin
    have hpend := h.pending i hi hfin
    obtain ⟨heq, hsame⟩ : base.flushResult = s.flushResult ∧ base.pools = s.pools := by
      rcases hfuture with hsame | ⟨-, hall⟩
      · exact hsame
      · rw [hall i hi] at hfin
        cases hfin
    refine ⟨by rw [hlaunched]; exact hpend.last, ?_, ?_, fun ho => absurd ho hidle, fun hpc => ?_⟩
    · rw [hfut, heq]
      exact hpend.future
    · rw [hflushes]
      exact hfiles.old _ hpend.file
    · rw [hflushes] at hpc ⊢
      have hid := h.handedKnown _ (flushes_mem_handedPools hi)
      exact poolMade_isOpen hbase hmade hid (hsame ▸ hpend.isOpen hpc)
  · rw [hfut] at hi
    rw [hlaunched]
    rcases hfuture with ⟨heq, -⟩ | ⟨hnone, -⟩
    · exact h.future i (heq ▸ hi)
    · rw [hnone] at hi
      cases hi
  · rw [hcount, ← hcounter]
    exact hcur.1
  · rw [hpools]
    exact hcur.2.2

theorem poolMade_flushList (h : s.Ownership) (hbase : s.SameWorld base)
    (hmade : base.PoolMade path s') (hi : i < s.launched) :
    (s'.started c).flushList i = s.flushList i := by
  rw [flushList, poolMade_flushes hbase hmade]
  exact poolMade_list hbase hmade (h.handedKnown _ (flushes_mem_handedPools hi))

section NewPool

variable (hbase : s.SameWorld base) (hmade : base.PoolMade path s')
  (hpath : ∀ i < s.launched, (s.flushes i).pc.isFinished = false → (s.flushes i).poolPath ≠ path)
  (hcounter : path = poolPath base.poolCounter)
  (hfuture : (base.flushResult = s.flushResult ∧ base.pools = s.pools) ∨
    (base.flushResult = none ∧ ∀ i < s.launched, (s.flushes i).pc.isFinished = true))
  (hopening : c.isOpening = false) (hlaunching : ∀ v, c ≠ .launching v)
include hbase hmade hpath hcounter hfuture hopening hlaunching

theorem usable_poolMade (h : s.Usable) :
    (s'.started c).Usable := by
  have hown : (s'.started c).Ownership :=
    ownership_poolMade h.ownership hbase hmade (poolMade_current h hbase hmade hpath) hcounter
      hfuture hopening hlaunching
  have hflushes : (s'.started c).flushes = s.flushes := poolMade_flushes hbase hmade
  have hlaunched : (s'.started c).launched = s.launched := poolMade_launched hbase hmade
  refine ⟨hown, fun i hi => ?_, fun i hi hfin => ?_, fun k p hk => (by cases hk), fun _ _ => rfl⟩
  · rw [hlaunched] at hi
    rw [poolMade_flushList h.ownership hbase hmade hi, hflushes]
    exact h.onList i hi
  · rw [hlaunched] at hi
    rw [hflushes] at hfin
    have hend := h.ended i hi hfin
    refine ⟨by rw [hflushes]; exact hend.result, fun f hf heq => ?_⟩
    rw [hflushes] at heq
    rcases (madeFiles h.ownership hbase hmade).new f hf with hf | rfl
    · exact hend.unlinked f hf heq
    · have hlt := h.ownership.handedKnown _ (flushes_mem_handedPools hi)
      exact Nat.ne_of_gt hlt heq

theorem inv_poolMade (h : s.Inv) :
    (s'.started c).Inv := by
  have hhanded := poolMade_handed (c := c) h hbase hmade
  have hdiskLog : (s'.started c).diskLog = s.diskLog := by
    rw [← hbase.diskLog]; cases hmade <;> rfl
  refine (usable_poolMade hbase hmade hpath hcounter hfuture hopening hlaunching h.usable).inv ?_
  obtain ⟨ds, hds, hleft⟩ := h.disk
  refine ⟨ds, hdiskLog.trans hds, ?_⟩
  rw [hhanded, ← hleft, remaining, remaining, poolMade_launched hbase hmade]
  cases hn : s.launched with
  | zero => rfl
  | succ i =>
    show ds ++ leftOf _ _ = _
    rw [poolMade_flushList h.ownership hbase hmade (by omega), poolMade_flushes hbase hmade]

end NewPool

end PoolMade

/-- The flush that is running is not that of the next pool. -/
theorem pending_path_ne (h : s.Ownership) {value : Tuple} (hpc : s.client = .opening value) :
    ∀ i < s.launched, (s.flushes i).pc.isFinished = false →
      (s.flushes i).poolPath ≠ poolPath (s.poolCounter + 1) := by
  intro i hi hfin heq
  rw [(h.pending i hi hfin).path ⟨value, hpc⟩] at heq
  exact poolPath_succ_ne _ heq.symm

theorem usable_clientMoved (h : s.Usable) {commit : Option Tuple} {s' : NVRecEngine}
    (hmoved : ClientMoved s commit s') : s'.Usable := by
  cases hmoved with
  | stay => exact h
  | insert value hpc _ => exact usable_inserted h hpc
  | update value ptr hpc hptr => exact usable_updated h hpc hptr
  | abort value hpc =>
    exact usable_setClient (not_opening_of_client hpc rfl) rfl (Or.inl rfl) (fun _ => nofun) h
  | join value hpc hfinished =>
    exact usable_setClient (not_opening_of_client hpc rfl) rfl (Or.inr ⟨rfl, hfinished⟩)
      (fun _ _ => rfl) h
  | launch value hpc => exact usable_launchFlush h hpc
  | next value hpc s' hmade =>
    exact usable_poolMade (SameWorld.counted s) hmade (pending_path_ne h.ownership hpc) rfl
      (Or.inl ⟨rfl, rfl⟩) rfl (fun _ => nofun) h

theorem inv_clientMoved (h : s.Inv) {commit : Option Tuple} {s' : NVRecEngine}
    (hmoved : ClientMoved s commit s') : s'.Inv := by
  cases hmoved with
  | stay => exact h
  | insert value hpc _ => exact inv_inserted h hpc
  | update value ptr hpc hptr => exact inv_updated h hpc hptr
  | abort value hpc =>
    exact inv_setClient (not_opening_of_client hpc rfl) rfl (Or.inl rfl) (fun _ => nofun) h
  | join value hpc hfinished =>
    exact inv_setClient (not_opening_of_client hpc rfl) rfl (Or.inr ⟨rfl, hfinished⟩)
      (fun _ _ => rfl) h
  | launch value hpc => exact inv_launchFlush h hpc
  | next value hpc s' hmade =>
    exact inv_poolMade (SameWorld.counted s) hmade (pending_path_ne h.ownership hpc) rfl
      (Or.inl ⟨rfl, rfl⟩) rfl (fun _ => nofun) h

/-! ### Restarts -/

/-- The engine that the destructor and the constructor leave before the
    constructor makes its pool. -/
def rebooted (s : NVRecEngine) : NVRecEngine :=
  { s.closePool with
    lookupTable := fun _ => none
    poolCounter := 0
    flushResult := none
    client := .idle (.returned .kSuccess) }

theorem restart_made (s : NVRecEngine) :
    ∃ s', s.closePool.construct = s'.started (.idle (.returned .kSuccess)) ∧
      s.rebooted.PoolMade kPoolPath s' := by
  have hopens : ({} : ClientEnv).opens = true := rfl
  obtain ⟨s', hs', hmade⟩ := poolMade s.rebooted hopens kPoolPath
  refine ⟨s', ?_, hmade⟩
  show (s.rebooted.makePersistentListPool {} kPoolPath).getD s.rebooted = _
  rw [hs', Option.getD_some]
  cases hmade <;> rfl

theorem sameWorld_rebooted (s : NVRecEngine) : s.SameWorld s.rebooted where
  list id := by
    by_cases hid : id = s.pool
    · subst hid
      simp [rebooted, closePool]
    · simp [rebooted, closePool, hid]
  created := rfl
  files := rfl
  diskLog := rfl
  flushes := rfl
  launched := rfl

theorem usable_restart (h : s.Usable) (hquiet : Quiet s) : s.closePool.construct.Usable := by
  obtain ⟨s', hs', hmade⟩ := restart_made s
  rw [hs']
  refine usable_poolMade (sameWorld_rebooted s) hmade (fun i hi hfin => ?_) rfl
    (Or.inr ⟨rfl, hquiet.2⟩) rfl (fun _ => nofun) h
  rw [hquiet.2 i hi] at hfin
  cases hfin

theorem inv_restart (h : s.Inv) (hquiet : Quiet s) : s.closePool.construct.Inv := by
  obtain ⟨s', hs', hmade⟩ := restart_made s
  rw [hs']
  refine inv_poolMade (sameWorld_rebooted s) hmade (fun i hi hfin => ?_) rfl
    (Or.inr ⟨rfl, hquiet.2⟩) rfl (fun _ => nofun) h
  rw [hquiet.2 i hi] at hfin
  cases hfin

theorem not_opening_of_isIdle (hidle : s.client.isIdle = true) : ¬s.Opening := by
  rintro ⟨v, hv⟩
  rw [hv] at hidle
  cases hidle

theorem usable_call (h : s.Usable) (hidle : s.client.isIdle = true) (value : Tuple) :
    ({ s with client := .transacting value } : NVRecEngine).Usable :=
  usable_setClient (not_opening_of_isIdle hidle) rfl (Or.inl rfl) (fun _ => nofun) h

theorem inv_call (h : s.Inv) (hidle : s.client.isIdle = true) (value : Tuple) :
    ({ s with client := .transacting value } : NVRecEngine).Inv :=
  inv_setClient (not_opening_of_isIdle hidle) rfl (Or.inl rfl) (fun _ => nofun) h

/-- A restart while the devices work: the engine has its pool open. -/
theorem step_restart (h : s.Ownership) :
    step s .restart = if Quiet s then s.closePool.construct else s := by
  rw [step]
  by_cases hquiet : Quiet s
  · have hopen := (h.current (not_opening_of_isIdle hquiet.1)).isOpen
    rw [if_pos hquiet, if_pos hquiet, if_neg (by rw [hopen]; exact Bool.noConfusion)]
  · rw [if_neg hquiet, if_neg hquiet]

/-- What is left of the invariant when nothing is known of the disk log. -/
theorem usable_step (h : s.Usable) {a : Action} (hok : a.Ok) : (step s a).Usable := by
  cases a with
  | call value =>
    rw [step]
    split
    · exact usable_call h ‹_› value
    · exact h
  | tick t =>
    cases t with
    | client env => exact usable_clientMoved h (clientStep_moved h hok)
    | flush i env => exact usable_flushStep h i hok
  | restart =>
    rw [step_restart h.ownership]
    split
    · exact usable_restart h ‹_›
    · exact h

/-- **The invariant**, over every action with working devices. -/
theorem inv_step (h : s.Inv) {a : Action} (hok : a.Ok) : (step s a).Inv := by
  cases a with
  | call value =>
    rw [step]
    split
    · exact inv_call h ‹_› value
    · exact h
  | tick t =>
    cases t with
    | client env => exact inv_clientMoved h (clientStep_moved h.usable hok)
    | flush i env => exact inv_flushStep h i hok
  | restart =>
    rw [step_restart h.ownership]
    split
    · exact inv_restart h ‹_›
    · exact h

end NVRecEngine

theorem fresh_pools (id : PoolId) : fresh.pools id = {} := by
  show Function.update (fun _ => ({} : Pool)) 0 {} id = {}
  rw [Function.update_eq_self_iff.mpr rfl]

theorem inv_fresh : fresh.Inv := by
  refine ⟨fun id => ?_, by decide, by decide, by decide, by decide, nofun, nofun, nofun, nofun,
    nofun, fun _ => ⟨by decide, by decide, by decide⟩, nofun, nofun, ⟨[], rfl, rfl⟩⟩
  rw [fresh_pools]
  exact wellFormed_empty

end NvrecYcsb.NvRec
