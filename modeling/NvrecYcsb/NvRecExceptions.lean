/-
  NvrecYcsb/NvRecExceptions.lean
  ==============================
  **What the engine's members mean, when device operations fail.**

  `NvRecInvariant` assumes that every flush succeeds.  Here any step of a flush
  thread may fail: the thread ends with an exception, and the next call that
  waits for it rethrows the exception and leaves `pool_` and the lookup table as
  they are.  The invariant `Sound` covers these exits.  The one exit that it does
  not cover is the one where the next pool cannot be made: the old pool has been
  handed over by then, and the counter has been raised (`repInvariant_iff_opensNext`).
-/
import NvrecYcsb.NvRecRestart

namespace NvrecYcsb.NvRec

open CppRuntime RecoveryDefs RecoveryInterface ListPool PersistentList NVRecEngine Runs

namespace NVRecEngine

variable {s : NVRecEngine} {i : Nat}

/-! ### The property -/

/-- The table maps the keys of the list, each to its only node. -/
structure Indexes (lookupTable : UInt64 → Option Ptr) (list : PersistentList) : Prop where
  keys : ∀ k, (lookupTable k).isSome ↔ ∃ t ∈ list.tuples, t.key = k
  node : ∀ k p, lookupTable k = some p →
    ∃ n, list.heap[p]? = some n ∧ n.key = k ∧ n.obj.key = k
  only : ∀ k p, lookupTable k = some p →
    ∀ (q : Ptr) m, list.heap[q]? = some m → m.key = k ∨ m.obj.key = k → q = p

/-- `pool_` is the open pool stored under the path of `pool_counter_` and has not
    been handed to `FlushToDisk`; `lookup_table_` is the index of its list. -/
structure Represents (s : NVRecEngine) : Prop where
  file : (poolPath s.poolCounter, s.pool) ∈ s.files
  isOpen : (s.pools s.pool).isOpen = true
  own : s.pool ∉ s.handedPools
  lookup : Indexes s.lookupTable (s.pools s.pool).list

/-- The path a flush was given names the file of its pool until it ends. -/
def FlushesNameFiles (s : NVRecEngine) : Prop :=
  ∀ i < s.launched, (s.flushes i).pc.isFinished = false →
    ((s.flushes i).poolPath, (s.flushes i).pool) ∈ s.files

/-- **The representation invariant**: it is suspended only between the start of a
    flush and the opening of the next pool, inside a call. -/
def RepInvariant (s : NVRecEngine) : Prop :=
  (¬s.Opening → s.Represents) ∧ s.FlushesNameFiles

/-- A step that makes the next pool succeeds in it. -/
def OpensNext (s : NVRecEngine) : Action → Prop
  | .tick (.client env) => s.client.isOpening = true → env.opens = true
  | _ => True

instance (s : NVRecEngine) : DecidablePred s.OpensNext
  | .call _ => isTrue trivial
  | .tick (.client env) =>
    inferInstanceAs (Decidable (s.client.isOpening = true → env.opens = true))
  | .tick (.flush _ _) => isTrue trivial
  | .restart => isTrue trivial

/-! ### The invariant -/

/-- The nodes of the list are those the table names. -/
def Exact (lookupTable : UInt64 → Option Ptr) (list : PersistentList) : Prop :=
  ∀ k p, lookupTable k = some p ↔ ∃ n, list.heap[p]? = some n ∧ n.obj.key = k

structure Sound (s : NVRecEngine) : Prop where
  lists : ∀ id, (s.pools id).list.WellFormed
  paths : (s.files.map Prod.fst).Nodup
  ids : (s.files.map Prod.snd).Nodup
  known : ∀ f ∈ s.files, f.2 < s.created
  handedKnown : ∀ id ∈ s.handedPools, id < s.created
  numbered : ∀ f ∈ s.files, ∃ n ≤ s.poolCounter, f.1 = poolPath n
  pending : ∀ i < s.launched, (s.flushes i).pc.isFinished = false → s.Pending i
  future : ∀ i, s.flushResult = some i → i < s.launched
  launching : ∀ value, s.client = .launching value → s.flushResult = none
  current : ¬s.Opening → s.Current
  exact : ¬s.Opening → Exact s.lookupTable (s.pools s.pool).list
  handedOver : s.Opening → s.pool ∈ s.handedPools

theorem Exact.indexes {lookupTable : UInt64 → Option Ptr} {list : PersistentList}
    (h : Exact lookupTable list) (hlist : list.WellFormed) : Indexes lookupTable list := by
  refine ⟨fun k => ?_, fun k p hk => ?_, fun k p hk q m hm hkey => ?_⟩
  · rw [Option.isSome_iff_exists, tuples_eq hlist]
    constructor
    · rintro ⟨p, hp⟩
      obtain ⟨n, hn, hkey⟩ := (h k p).mp hp
      exact ⟨n.obj, List.mem_reverse.mpr (List.mem_map_of_mem (List.mem_of_getElem? hn)), hkey⟩
    · rintro ⟨t, ht, hkey⟩
      obtain ⟨n, hn, rfl⟩ := List.mem_map.mp (List.mem_reverse.mp ht)
      obtain ⟨p, hp⟩ := List.getElem?_of_mem hn
      exact ⟨p, (h k p).mpr ⟨n, hp, hkey⟩⟩
  · obtain ⟨n, hn, hkey⟩ := (h k p).mp hk
    exact ⟨n, hn, (hlist.key p n hn).trans hkey, hkey⟩
  · have hobj : m.obj.key = k := by
      rcases hkey with hkey | hkey
      · rw [← hlist.key q m hm]
        exact hkey
      · exact hkey
    have hq : lookupTable k = some q := (h k q).mpr ⟨m, hm, hobj⟩
    rw [hk] at hq
    exact (Option.some.inj hq).symm

theorem Sound.repInvariant (h : s.Sound) : s.RepInvariant := by
  constructor
  · intro hopening
    have hcur := h.current hopening
    exact ⟨hcur.file, hcur.isOpen, hcur.own, (h.exact hopening).indexes (h.lists s.pool)⟩
  · intro i hi hfin
    exact (h.pending i hi hfin).file

theorem Sound.ownership (h : s.Sound) : s.Ownership where
  lists := h.lists
  paths := h.paths
  ids := h.ids
  known := h.known
  handedKnown := h.handedKnown
  pending := h.pending
  future := h.future
  launching := h.launching
  current := h.current

/-- What `Sound` asks besides. -/
theorem Ownership.sound (h : s.Ownership)
    (hnumbered : ∀ f ∈ s.files, ∃ n ≤ s.poolCounter, f.1 = poolPath n)
    (hexact : ¬s.Opening → Exact s.lookupTable (s.pools s.pool).list)
    (hhandedOver : s.Opening → s.pool ∈ s.handedPools) : s.Sound where
  lists := h.lists
  paths := h.paths
  ids := h.ids
  known := h.known
  handedKnown := h.handedKnown
  numbered := hnumbered
  pending := h.pending
  future := h.future
  launching := h.launching
  current := h.current
  exact := hexact
  handedOver := hhandedOver

/-! ### Steps of a flush thread -/

/-- What a step of flush thread `i` can do, whatever the devices do. -/
inductive FlushTook (s : NVRecEngine) (i : Nat) : NVRecEngine → Prop
  | stay : FlushTook s i s
  | move (pc : FlushPc) (pools : PoolId → Pool) (diskLog : List Byte) (hi : i < s.launched)
      (hunfinished : (s.flushes i).pc.isFinished = false) (hpools : s.SameLists pools)
      (hholds : s.Holds i pc pools) : FlushTook s i (s.moveFlush i pc pools diskLog)
  | unlink (hi : i < s.launched) (hunfinished : (s.flushes i).pc.isFinished = false) :
      FlushTook s i (s.unlinked i)

/-- **Inversion of a flush step.** -/
theorem flushStep_took (s : NVRecEngine) (i : Nat) (env : FlushEnv) :
    FlushTook s i (s.flushStep env i) := by
  rw [flushStep]
  by_cases hi : i < s.launched
  swap
  · rw [if_neg hi]
    exact .stay
  rw [if_pos hi, flushThreadStep]
  have hset : ∀ pc, (s.flushes i).pc.isFinished = false →
      (pc.holdsPool = true → (s.flushes i).pc.holdsPool = true) → FlushTook s i (s.setPc i pc) :=
    fun pc hfin hholds => .move pc s.pools s.diskLog hi hfin (.refl s) fun hpc => ⟨hholds hpc, rfl⟩
  cases hpc : (s.flushes i).pc with
  | starting =>
    rw [hpc] at hset
    by_cases hmapped : (s.pools (s.flushes i).pool).isOpen = false
    · simp only [hmapped, if_true]
      exact hset _ rfl fun _ => rfl
    · by_cases hopen : env.diskOpen = true
      · simp only [hmapped, hopen, if_true]
        exact hset _ rfl fun _ => rfl
      · simp only [hmapped, hopen]
        exact hset _ rfl fun _ => rfl
  | reading current =>
    rw [hpc] at hset
    cases current with
    | none => exact hset _ rfl fun _ => rfl
    | some p =>
      cases hnode : s.flushNode i p with
      | none =>
        simp only [hnode]
        exact hset _ rfl fun _ => rfl
      | some n =>
        simp only [hnode]
        exact hset _ rfl fun _ => rfl
  | writing p t =>
    have hfin : (s.flushes i).pc.isFinished = false := by rw [hpc]; rfl
    have hheld : (s.flushes i).pc.holdsPool = true := by rw [hpc]; rfl
    have hwrite : ∀ pc diskLog, FlushTook s i
        (({ s with diskLog := diskLog } : NVRecEngine).setPc i pc) :=
      fun pc diskLog => .move pc s.pools diskLog hi hfin (.refl s) (.of_pools hheld)
    by_cases hcount : (osWrite env.diskWrite t.bytes s.diskLog).1 = sizeofTuple
    · simp only [hcount, if_true]
      split
      · exact hwrite _ _
      · exact hwrite _ _
    · simp only [hcount, if_false]
      exact hwrite _ _
  | syncing =>
    rw [hpc] at hset
    exact hset _ rfl fun _ => rfl
  | closing =>
    have hfin : (s.flushes i).pc.isFinished = false := by rw [hpc]; rfl
    rw [hpc] at hset
    by_cases hmapped : (s.pools (s.flushes i).pool).isOpen = false
    · simp only [hmapped, if_true]
      exact hset _ rfl fun _ => rfl
    · simp only [hmapped]
      exact .move .unlinking _ s.diskLog hi hfin (sameLists_closed hi) fun hheld => by cases hheld
  | unlinking =>
    have hfin : (s.flushes i).pc.isFinished = false := by rw [hpc]; rfl
    rw [hpc] at hset
    by_cases hunlink : env.unlinks = true ∧ (s.files.lookup (s.flushes i).poolPath).isSome = true
    · simp only [hunlink, and_self, if_true]
      exact .unlink hi hfin
    · simp only [hunlink, if_false]
      exact hset _ rfl fun hheld => hheld
  | finished r => exact .stay

theorem sound_moveFlush {pc : FlushPc} {pools : PoolId → Pool} {diskLog : List Byte}
    (h : s.Sound) (hi : i < s.launched) (hunfinished : (s.flushes i).pc.isFinished = false)
    (hpools : s.SameLists pools) (hholds : s.Holds i pc pools) :
    (s.moveFlush i pc pools diskLog).Sound := by
  refine (ownership_moveFlush h.ownership hi hunfinished hpools hholds).sound h.numbered
    (fun hopen => ?_) ?_
  · show Exact s.lookupTable (pools s.pool).list
    rw [hpools.list]
    exact h.exact hopen
  · rw [moveFlush_handedPools]
    exact h.handedOver

theorem sound_unlinked (h : s.Sound) (hi : i < s.launched)
    (hunfinished : (s.flushes i).pc.isFinished = false) : (s.unlinked i).Sound := by
  refine (ownership_unlinked h.ownership hi hunfinished).sound
    (fun f hf => h.numbered f (mem_unlinked_files.mp hf).1) h.exact ?_
  rw [unlinked_handedPools]
  exact h.handedOver

theorem sound_flushStep (h : s.Sound) (i : Nat) (env : FlushEnv) : (s.flushStep env i).Sound := by
  have htook := flushStep_took s i env
  generalize s.flushStep env i = s' at htook ⊢
  cases htook with
  | stay => exact h
  | move pc pools diskLog hi hunfinished hpools hholds =>
    exact sound_moveFlush h hi hunfinished hpools hholds
  | unlink hi hunfinished => exact sound_unlinked h hi hunfinished

/-! ### Steps of the client -/

section Committed

variable {list : PersistentList} {lookupTable : UInt64 → Option Ptr}

theorem sound_committed (h : s.Sound) (hopening : ¬s.Opening) (hlist : list.WellFormed)
    (hexact : Exact lookupTable list) : (s.committed list lookupTable).Sound := by
  refine (ownership_committed h.ownership hopening hlist).sound h.numbered (fun _ => ?_)
    fun ho => absurd ho (not_opening_of_client rfl rfl)
  show Exact lookupTable ((s.committed list lookupTable).pools s.pool).list
  rw [committed_pool]
  exact hexact

theorem exact_insert (h : Exact lookupTable list) (hlist : list.WellFormed) {value : Tuple}
    (hnew : lookupTable value.key = none) :
    Exact (Function.update lookupTable value.key (some (list.insert value).1))
      (list.insert value).2 := by
  obtain ⟨hptr, -, -, -, hheap⟩ := insert_spec hlist value
  have hnode : ∀ (p : Ptr) k, (∃ n, (list.insert value).2.heap[p]? = some n ∧ n.obj.key = k) ↔
      if p = list.heap.length then value.key = k
      else ∃ n, list.heap[p]? = some n ∧ n.obj.key = k := by
    intro p k
    rw [hheap]
    by_cases hp : p = list.heap.length
    · simp [hp]
    · rw [if_neg hp, if_neg hp]
      cases hn : list.heap[p]? with
      | none => simp
      | some n => by_cases hold : p + 1 = list.heap.length <;> simp [hold]
  intro k p
  rw [hnode, hptr]
  by_cases hkey : k = value.key
  · subst hkey
    rw [Function.update_self]
    by_cases hp : p = list.heap.length
    · simp [hp]
    · rw [if_neg hp, ← h value.key p, hnew]
      simp [Ne.symm hp]
  · rw [Function.update_of_ne hkey, h k p]
    by_cases hp : p = list.heap.length
    · subst hp
      simp [Ne.symm hkey]
    · rw [if_neg hp]

theorem exact_setObj (h : Exact lookupTable list) {value : Tuple} {ptr : Ptr}
    (hptr : lookupTable value.key = some ptr) : Exact lookupTable (list.setObj ptr value) := by
  obtain ⟨m, hm, hmkey⟩ := (h _ _).mp hptr
  intro k p
  rw [h k p, setObj, assign, List.getElem?_modify]
  by_cases hp : ptr = p
  · subst hp
    simp [hm, hmkey]
  · simp [hp]

end Committed

theorem sound_setClient (h : s.Sound) {c : ClientPc} {future : Option Nat} (hopening : ¬s.Opening)
    (hc : c.isOpening = false)
    (hfuture : future = s.flushResult ∨
      (future = none ∧ ∀ i < s.launched, (s.flushes i).pc.isFinished = true))
    (hlaunching : ∀ v, c = .launching v → future = none) :
    ({ s with flushResult := future, client := c } : NVRecEngine).Sound :=
  (ownership_setClient hopening hc hfuture hlaunching h.ownership).sound h.numbered
    (fun _ => h.exact hopening) fun ho => absurd ho (not_opening_of_client rfl hc)

theorem sound_transact (h : s.Sound) {value : Tuple} (hpc : s.client = .transacting value)
    (env : ClientEnv) : (s.transact env value).Sound := by
  have hopening : ¬s.Opening := not_opening_of_client hpc rfl
  have hopen : ¬(s.pools s.pool).isOpen = false := by
    rw [(h.current hopening).isOpen]
    exact Bool.noConfusion
  have hlist := h.lists s.pool
  have hexact := h.exact hopening
  rw [transact, if_neg hopen]
  by_cases hcommits : env.commits = true
  · rw [if_pos hcommits]
    cases hlookup : s.lookupTable value.key with
    | none =>
      exact sound_committed h hopening (wellFormed_insert hlist value)
        (exact_insert hexact hlist hlookup)
    | some ptr =>
      obtain ⟨m, hm, hmkey⟩ := (hexact _ _).mp hlookup
      exact sound_committed h hopening (wellFormed_setObj hlist hm hmkey)
        (exact_setObj hexact hlookup)
  · rw [if_neg hcommits]
    refine sound_setClient h hopening rfl (Or.inl rfl) ?_
    intro v hv
    cases hv

/-- A flush that failed: the call ends with its exception, and nothing has moved. -/
theorem sound_awaitFlush (h : s.Sound) {value : Tuple} (hpc : s.client = .waiting value) :
    (s.awaitFlush value).Sound := by
  have hopening : ¬s.Opening := not_opening_of_client hpc rfl
  have hjoin : (∀ i < s.launched, (s.flushes i).pc.isFinished = true) → ∀ c : ClientPc,
      c.isOpening = false → ({ s with flushResult := none, client := c } : NVRecEngine).Sound :=
    fun hall c hc => sound_setClient h hopening hc (Or.inr ⟨rfl, hall⟩) fun _ _ => rfl
  cases hfuture : s.flushResult with
  | none =>
    rw [awaitFlush, hfuture]
    exact hjoin (h.ownership.finished_of_future hfuture) (.launching value) rfl
  | some j =>
    cases hfin : (s.flushes j).pc.isFinished with
    | false =>
      rw [awaitFlush_of_unfinished hfuture hfin]
      exact h
    | true =>
      have hall := h.ownership.finished_of_last hfuture hfin
      rw [awaitFlush, hfuture]
      cases hpcj : (s.flushes j).pc with
      | finished r =>
        simp only [hpcj]
        cases r with
        | returned r => exact hjoin hall (.launching value) rfl
        | threw e => exact hjoin hall (.idle (.threw e)) rfl
        | aborted => exact hjoin hall (.idle .undefined) rfl
        | undefined => exact hjoin hall (.idle .undefined) rfl
        | running => exact hjoin hall (.idle .undefined) rfl
      | _ =>
        rw [hpcj] at hfin
        cases hfin

theorem sound_launchFlush (h : s.Sound) {value : Tuple} (hpc : s.client = .launching value) :
    (s.launchFlush value).Sound := by
  refine (ownership_launchFlush h.ownership hpc).sound h.numbered
    (fun ho => absurd ⟨value, rfl⟩ ho) fun _ => ?_
  rw [launchFlush_handedPools]
  exact List.mem_append_right _ (List.mem_singleton_self _)

/-- The next pool is a new one: the files are numbered up to the counter. -/
theorem numbered_ne (h : s.Sound) {f : Str × PoolId} (hf : f ∈ s.files) :
    f.1 ≠ poolPath (s.poolCounter + 1) := by
  intro heq
  obtain ⟨n, hn, hpath⟩ := h.numbered f hf
  have hcounter := poolPath_injective (hpath.symm.trans heq)
  omega

theorem exact_empty : Exact (fun _ => none) {} := by
  intro k p
  simp

/-- The next pool is created, for no file has its path. -/
theorem sound_poolMade (h : s.Sound) (value : Tuple) {s' : NVRecEngine}
    (hmade : PoolMade { s with poolCounter := s.poolCounter + 1 } (poolPath (s.poolCounter + 1)) s') :
    (s'.started (.transacting value)).Sound := by
  have hfiles := madeFiles h.ownership (SameWorld.counted s) hmade
  have hnumbered : ∀ f ∈ s'.files, ∃ n ≤ s.poolCounter + 1, f.1 = poolPath n := by
    intro f hf
    rcases hfiles.new f hf with hf | rfl
    · obtain ⟨n, hn, hpath⟩ := h.numbered f hf
      exact ⟨n, Nat.le_succ_of_le hn, hpath⟩
    · exact ⟨_, le_rfl, rfl⟩
  cases hmade with
  | opened id hfile => exact absurd rfl (numbered_ne h hfile)
  | created hnone =>
    have hown : s.created ∉ s.handedPools := fun hown =>
      Nat.lt_irrefl _ (h.handedKnown _ hown)
    refine (ownership_poolMade h.ownership (SameWorld.counted s) (.created hnone)
      ⟨List.mem_append_right _ (List.mem_singleton_self _), by simp, hown⟩ rfl
      (Or.inl ⟨rfl, rfl⟩) rfl
      fun v hv => by cases hv).sound hnumbered (fun _ => ?_) fun ho => ?_
    · simpa [started] using exact_empty
    · exact absurd ho (not_opening_of_client rfl rfl)

theorem sound_openNextPool (h : s.Sound) (value : Tuple) {env : ClientEnv}
    (hopens : env.opens = true) : (s.openNextPool env value).Sound := by
  obtain ⟨s', hs', hmade⟩ := poolMade { s with poolCounter := s.poolCounter + 1 } hopens
    (poolPath (s.poolCounter + 1))
  simp only [openNextPool, hs']
  exact sound_poolMade h value hmade

theorem sound_clientStep (h : s.Sound) {env : ClientEnv}
    (hopens : s.client.isOpening = true → env.opens = true) :
    (s.clientStep env).Sound := by
  rw [clientStep]
  cases hpc : s.client with
  | idle r => exact h
  | transacting value => exact sound_transact h hpc env
  | waiting value => exact sound_awaitFlush h hpc
  | launching value => exact sound_launchFlush h hpc
  | opening value => exact sound_openNextPool h value (hopens (by rw [hpc]; rfl))

theorem sound_step (h : s.Sound) {a : Action} (hrestart : a ≠ .restart) (hopens : s.OpensNext a) :
    (step s a).Sound := by
  cases a with
  | call value =>
    rw [step]
    split
    · refine sound_setClient h (not_opening_of_isIdle ‹_›) rfl (Or.inl rfl) ?_
      intro v hv
      cases hv
    · exact h
  | tick t =>
    cases t with
    | client env => exact sound_clientStep h hopens
    | flush i env => exact sound_flushStep h i env
  | restart => exact absurd rfl hrestart

/-- **The pool that was moved away**: when the next pool cannot be made, `pool_`
    names the pool that was handed over. -/
theorem not_repInvariant_of_failedOpen {value : Tuple} (h : s.Sound)
    (hpc : s.client = .opening value) {env : ClientEnv} (hopens : env.opens = false) :
    ¬(step s (.tick (.client env))).RepInvariant := by
  have hstep : step s (.tick (.client env)) =
      { s with poolCounter := s.poolCounter + 1, client := .idle (.threw .poolError) } := by
    simp [step, tick, clientStep, hpc, openNextPool, makePersistentListPool, hopens]
  rw [hstep]
  rintro ⟨hrep, -⟩
  exact (hrep (not_opening_of_client rfl rfl)).own (h.handedOver ⟨value, hpc⟩)

end NVRecEngine

theorem sound_fresh : fresh.Sound := by
  refine ⟨fun id => ?_, by decide, by decide, by decide, by decide, ?_, nofun, nofun, nofun,
    fun _ => ⟨by decide, by decide, by decide⟩, fun _ => ?_, nofun⟩
  · rw [fresh_pools]
    exact wellFormed_empty
  · intro f hf
    obtain rfl := List.mem_singleton.mp hf
    exact ⟨0, le_rfl, rfl⟩
  · rw [fresh_pools]
    exact exact_empty

/-- The disk log cannot be opened, and the next call that finds the pool full ends
    with the exception of the flush; the one after it starts a flush again. -/
def failedFlush : List Action :=
  soloCall { key := 1 } overflow ++ .tick (.flush 0 { diskOpen := false }) ::
    soloCall { key := 2 } [{ commits := false }, {}] ++ soloCall { key := 3 } overflow

/-- The first pool is full and handed over, and the second cannot be created. -/
def failedOpen : List Action :=
  soloCall { key := 1 } [{ commits := false }, {}, {}, { opens := false }]

end NvrecYcsb.NvRec
