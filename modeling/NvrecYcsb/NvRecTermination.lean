/-
  NvrecYcsb/NvRecTermination.lean
  ===============================
  **`PersistRaw` terminates.**

  Every exception makes `PersistRaw` hand its pool to a flush and call itself on
  the next pool, which may be a full pool of an earlier process.  What bounds the
  recursion is in the file system: pool files are created under the number of
  the counter only, so the first number after the counter that no file has is
  that of a new pool, and a new pool takes the tuple.

  The pool files and the disk log may hold anything an earlier process left
  (`usable_boot`), and threads are scheduled in any weakly fair way.

  * `retrying_tick`: what holds throughout the call, whatever is scheduled;
  * `progress_tick`: each step that moves brings the call closer to its end;
  * `persistRaw_terminates`: the call ends, after at most one recursive call
    more than there are pool files ahead.
-/
import NvrecYcsb.FairRuns
import NvrecYcsb.NvRecCalls
import NvrecYcsb.NvRecExceptions
import Mathlib.Data.List.Perm.Subperm
import Mathlib.Data.Nat.Pairing
import Mathlib.Data.Prod.Lex

namespace NvrecYcsb.NvRec

open CppRuntime RecoveryDefs RecoveryInterface ListPool PersistentList NVRecEngine Runs

/-- The client or a flush thread. -/
inductive Thread where
  | client
  | flush (i : Nat)

def Tick.thread : Tick → Thread
  | .client _ => .client
  | .flush i _ => .flush i

def ClientPc.isTransacting : ClientPc → Bool
  | .transacting _ => true
  | _ => false

namespace NVRecEngine

variable {s start : NVRecEngine} {value : Tuple}

/-- The tick ends in the recursive call of `PersistRaw`. -/
def Recurses (s : NVRecEngine) : Tick → Bool
  | .client env => s.client.isOpening && (s.clientStep env).client.isTransacting
  | .flush _ _ => false

/-- The recursive calls of `PersistRaw` in a run. -/
def recursions : NVRecEngine → List Tick → Nat
  | _, [] => 0
  | s, t :: ts => (if s.Recurses t then 1 else 0) + recursions (tick s t) ts

/-- The pool files numbered consecutively after the counter. -/
def poolsAhead (s : NVRecEngine) : Nat :=
  (List.range (s.files.length + 1)).findIdx fun j =>
    (s.files.lookup (poolPath (s.poolCounter + 1 + j))).isNone

/-- The tuple is in the list of the current pool, in the node that the table has
    for its key. -/
def Stored (s : NVRecEngine) (value : Tuple) : Prop :=
  value ∈ s.tuplesOf s.pool ∧
    ∃ p n, s.lookupTable value.key = some p ∧ (s.pools s.pool).list.heap[p]? = some n ∧
      n.obj = value

/-- The devices work, and a transaction on a pool that was not known before
    commits: it is the first on this pool. -/
def Serves (known : PoolId) (s : NVRecEngine) (t : Tick) : Prop :=
  t.Ok ∧ ∀ env, t = .client env → s.client.isTransacting = true → known ≤ s.pool →
    env.commits = true

instance (known : PoolId) (s : NVRecEngine) : DecidablePred (Serves known s)
  | .client env =>
    decidable_of_iff (env.opens = true ∧ (s.client.isTransacting = true → known ≤ s.pool →
      env.commits = true))
      ⟨fun h => ⟨h.1, fun _ henv => Tick.client.inj henv ▸ h.2⟩, fun h => ⟨h.1, h.2 env rfl⟩⟩
  | .flush _ env =>
    decidable_of_iff (env.diskOpen = true ∧ env.diskWrite = .complete ∧ env.unlinks = true)
      ⟨fun h => ⟨h, fun _ henv => Tick.noConfusion henv⟩, fun h => h.1⟩

/-- What a new process finds: pool files and a disk log. -/
def found (pools : PoolId → Pool) (created : Nat) (files : List (Str × PoolId))
    (diskLog : List Byte) : NVRecEngine :=
  { pools := pools, created := created, files := files, diskLog := diskLog, pool := 0
    lookupTable := fun _ => none, poolCounter := 0
    flushes := fun _ => ⟨[], 0, .starting⟩, launched := 0, flushResult := none
    client := .idle (.returned .kSuccess) }

/-- A new process over the pool files and the disk log that it finds. -/
def boot (pools : PoolId → Pool) (created : Nat) (files : List (Str × PoolId))
    (diskLog : List Byte) : NVRecEngine :=
  construct (found pools created files diskLog)

/-! ### What a process finds -/

/-- **An engine is usable over any pool files and any disk log**, the lists being
    what `Insert` makes. -/
theorem usable_boot {pools : PoolId → Pool} {created : Nat} {files : List (Str × PoolId)}
    (diskLog : List Byte) (hlists : ∀ id, (pools id).list.WellFormed)
    (hpaths : (files.map Prod.fst).Nodup) (hids : (files.map Prod.snd).Nodup)
    (hknown : ∀ f ∈ files, f.2 < created) : (boot pools created files diskLog).Usable := by
  -- there is no current pool yet, as while the next one is being opened
  let before : NVRecEngine := { found pools created files diskLog with client := .opening {} }
  have hopening : before.Opening := ⟨{}, rfl⟩
  have hbefore : before.Usable := by
    refine ⟨⟨hlists, hpaths, hids, hknown, ?_, ?_, ?_, ?_, fun ho => absurd hopening ho⟩,
      ?_, ?_, ?_, fun _ _ => rfl⟩
    · intro id hid
      cases hid
    · intro i hi
      cases hi
    · intro i hi
      cases hi
    · intro v hv
      cases hv
    · intro i hi
      cases hi
    · intro i hi
      cases hi
    · intro k p hk
      cases hk
  have hsame : before.SameWorld (found pools created files diskLog) :=
    ⟨fun _ => rfl, rfl, rfl, rfl, rfl, rfl⟩
  have hopens : ({} : ClientEnv).opens = true := rfl
  obtain ⟨s', hs', hmade⟩ := poolMade (found pools created files diskLog) hopens kPoolPath
  have hboot : boot pools created files diskLog = s'.started (.idle (.returned .kSuccess)) := by
    show ((found pools created files diskLog).makePersistentListPool {} kPoolPath).getD _ = _
    rw [hs', Option.getD_some]
    cases hmade <;> rfl
  rw [hboot]
  refine usable_poolMade hsame hmade ?_ rfl (Or.inl ⟨rfl, rfl⟩) rfl (fun _ => nofun) hbefore
  intro i hi
  cases hi

/-- Every state that such a process reaches while the devices work is usable. -/
theorem usable_run {actions : List Action} (hok : ∀ a ∈ actions, a.Ok) (h : s.Usable) :
    (run step s actions).Usable :=
  (throughout_of_allSteps (J := Usable) (P := fun _ a => a.Ok)
    (fun _ _ hu hok => usable_step hu hok) h (allSteps_const.mpr hok)).last

/-! ### The pool files ahead -/

theorem exists_free (s : NVRecEngine) : ∃ j < s.files.length + 1,
    s.files.lookup (poolPath (s.poolCounter + 1 + j)) = none := by
  by_contra hall
  push Not at hall
  have hsub : ((List.range (s.files.length + 1)).map fun j => poolPath (s.poolCounter + 1 + j)) ⊆
      s.files.map Prod.fst := by
    intro path hpath
    obtain ⟨j, hj, rfl⟩ := List.mem_map.mp hpath
    obtain ⟨id, hid⟩ := Option.ne_none_iff_exists'.mp (hall j (List.mem_range.mp hj))
    exact List.mem_map_of_mem (f := Prod.fst) (mem_of_lookup hid)
  have hnodup : ((List.range (s.files.length + 1)).map fun j =>
      poolPath (s.poolCounter + 1 + j)).Nodup :=
    List.nodup_range.map fun j k hjk => Nat.add_left_cancel (poolPath_injective hjk)
  have hlen := (List.subperm_of_subset hnodup hsub).length_le
  rw [List.length_map, List.length_map, List.length_range] at hlen
  omega

/-- The numbers ahead are taken up to the first that is free. -/
theorem poolsAhead_spec (s : NVRecEngine) :
    (∀ j < s.poolsAhead, ∃ id, (poolPath (s.poolCounter + 1 + j), id) ∈ s.files) ∧
      ∀ f ∈ s.files, f.1 ≠ poolPath (s.poolCounter + 1 + s.poolsAhead) := by
  obtain ⟨j, hj, hfree⟩ := s.exists_free
  have hlt : s.poolsAhead < (List.range (s.files.length + 1)).length :=
    List.findIdx_lt_length_of_exists ⟨j, List.mem_range.mpr hj, by rw [hfree]; rfl⟩
  constructor
  · intro j hj
    have htaken := List.not_of_lt_findIdx hj
    rw [List.getElem_range] at htaken
    cases hlookup : s.files.lookup (poolPath (s.poolCounter + 1 + j)) with
    | none =>
      rw [hlookup] at htaken
      cases htaken
    | some id => exact ⟨id, mem_of_lookup hlookup⟩
  · intro f hf hpath
    have hnone : (s.files.lookup (poolPath (s.poolCounter + 1 +
        (List.range (s.files.length + 1)).get ⟨s.poolsAhead, hlt⟩))).isNone = true :=
      List.findIdx_getElem (w := hlt)
    rw [List.get_eq_getElem, List.getElem_range, ← hpath, Option.isNone_iff_eq_none] at hnone
    have hsome := lookup_isSome_of_mem hf
    rw [hnone] at hsome
    cases hsome

/-! ### What the steps of flush threads leave alone -/

structure Beside (s s' : NVRecEngine) : Prop where
  list : ∀ id, (s'.pools id).list = (s.pools id).list
  created : s'.created = s.created
  files : ∀ f ∈ s'.files, f ∈ s.files
  pool : s'.pool = s.pool
  lookupTable : s'.lookupTable = s.lookupTable
  poolCounter : s'.poolCounter = s.poolCounter
  flushResult : s'.flushResult = s.flushResult
  client : s'.client = s.client

theorem flushStep_beside (s : NVRecEngine) (i : Nat) (env : FlushEnv) :
    Beside s (s.flushStep env i) := by
  have htook := flushStep_took s i env
  generalize s.flushStep env i = s' at htook ⊢
  cases htook with
  | stay => exact ⟨fun _ => rfl, rfl, fun _ hf => hf, rfl, rfl, rfl, rfl, rfl⟩
  | move pc pools diskLog hi hunfinished hpools _ =>
    exact ⟨hpools.list, rfl, fun _ hf => hf, rfl, rfl, rfl, rfl, rfl⟩
  | unlink hi hunfinished =>
    exact ⟨fun _ => rfl, rfl, fun _ hf => (mem_unlinked_files.mp hf).1, rfl, rfl, rfl, rfl, rfl⟩

/-- The counter counts the recursive calls. -/
theorem poolCounter_tick {t : Tick} (hok : t.Ok) :
    (tick s t).poolCounter = s.poolCounter + if s.Recurses t then 1 else 0 := by
  cases t with
  | flush i env => exact (flushStep_beside s i env).poolCounter
  | client env =>
    rw [tick, Recurses, clientStep]
    cases hpc : s.client with
    | idle r => rfl
    | transacting value =>
      show (s.transact env value).poolCounter = s.poolCounter
      rw [transact]
      split_ifs
      · rfl
      · cases s.lookupTable value.key <;> rfl
      · rfl
    | waiting value =>
      show (s.awaitFlush value).poolCounter = s.poolCounter
      rw [awaitFlush]
      split
      · rfl
      · split <;> rfl
    | launching value => rfl
    | opening value =>
      obtain ⟨s', hmade, hs'⟩ := openNextPool_made s hok value
      simp only [hs']
      cases hmade <;> rfl

theorem poolCounter_run {ticks : List Tick} (hok : ∀ t ∈ ticks, t.Ok) :
    (run tick s ticks).poolCounter = s.poolCounter + s.recursions ticks := by
  induction ticks generalizing s with
  | nil => rfl
  | cons t ticks ih =>
    rw [run_cons, ih fun u hu => hok u (List.mem_cons_of_mem t hu),
      poolCounter_tick (hok t List.mem_cons_self), recursions, Nat.add_assoc]

/-! ### Tuples stored -/

theorem stored_committed {list : PersistentList} {lookupTable : UInt64 → Option Ptr} {p : Ptr}
    {n : ListNode} (hlist : list.WellFormed) (hptr : lookupTable value.key = some p)
    (hn : list.heap[p]? = some n) (hobj : n.obj = value) :
    (s.committed list lookupTable).Stored value := by
  have hpool : ((s.committed list lookupTable).pools s.pool).list = list := by
    rw [committed_pool]
  constructor
  · show value ∈ (s.committed list lookupTable).tuplesOf s.pool
    rw [committed_tuplesOf_pool, tuples_eq hlist, ← hobj]
    exact List.mem_reverse.mpr (List.mem_map_of_mem (List.mem_of_getElem? hn))
  · refine ⟨p, n, hptr, ?_, hobj⟩
    show ((s.committed list lookupTable).pools s.pool).list.heap[p]? = some n
    rw [hpool]
    exact hn

theorem stored_inserted (h : s.Usable) (value : Tuple) : (s.inserted value).Stored value := by
  have hlist := h.ownership.lists s.pool
  obtain ⟨hptr, -, -, -, hheap⟩ := insert_spec hlist value
  refine stored_committed
    (n := { next := (s.pools s.pool).list.head, key := value.key, obj := value })
    (wellFormed_insert hlist value) (Function.update_self ..) ?_ rfl
  rw [hheap, if_pos hptr]

theorem stored_updated (h : s.Usable) {ptr : Ptr} (hptr : s.lookupTable value.key = some ptr) :
    (s.updated ptr value).Stored value := by
  obtain ⟨m, hm, -⟩ := h.lookup _ _ hptr
  refine stored_committed (n := { m with obj := value }) (wellFormed_updated h hptr) hptr ?_ rfl
  rw [setObj, assign, List.getElem?_modify, hm]
  simp

theorem stored_beside {s' : NVRecEngine} (hbeside : Beside s s') (h : s.Stored value) :
    s'.Stored value := by
  obtain ⟨hmem, hnode⟩ := h
  constructor
  · rw [tuplesOf, hbeside.pool, hbeside.list]
    exact hmem
  · rw [hbeside.lookupTable, hbeside.pool, hbeside.list]
    exact hnode

/-! ### Throughout the call -/

/-- Where the call is.  It leaves the transaction without a result only on a
    counter that some file had when it started. -/
inductive InRetry (start : NVRecEngine) (value : Tuple) (s : NVRecEngine) : Prop
  | transacting (hpc : s.client = .transacting value)
  | between (hcounter : s.poolCounter ≤ start.poolCounter + start.poolsAhead)
      (hpc : s.client = .waiting value ∨ s.client = .launching value ∨ s.client = .opening value)
  | returned (hpc : s.client = .idle (.returned .kSuccess)) (hstored : s.Stored value)

/-- The engine in the call of `PersistRaw` that began in `start`. -/
structure Retrying (start : NVRecEngine) (value : Tuple) (s : NVRecEngine) : Prop where
  usable : s.Usable
  counter : s.poolCounter ≤ start.poolCounter + start.poolsAhead + 1
  created : start.created ≤ s.created
  files : ∀ f ∈ s.files, f ∈ start.files ∨ ∃ n ≤ s.poolCounter, f.1 = poolPath n
  new : ¬s.Opening → s.poolCounter = start.poolCounter + start.poolsAhead + 1 →
    start.created ≤ s.pool
  phase : InRetry start value s

theorem InRetry.of_transacting (h : InRetry start value s) {v : Tuple}
    (hpc : s.client = .transacting v) : v = value := by
  rcases h with hpc' | ⟨-, hpc'⟩ | ⟨hpc', -⟩
  · simpa [hpc', eq_comm] using hpc
  · simp [hpc] at hpc'
  · simp [hpc] at hpc'

theorem InRetry.of_between (h : InRetry start value s) {v : Tuple}
    (hpc : s.client = .waiting v ∨ s.client = .launching v ∨ s.client = .opening v) :
    v = value ∧ s.poolCounter ≤ start.poolCounter + start.poolsAhead := by
  rcases h with hpc' | ⟨hcounter, hpc'⟩ | ⟨hpc', -⟩
  · simp [hpc'] at hpc
  · refine ⟨?_, hcounter⟩
    rcases hpc' with hpc' | hpc' | hpc' <;> simpa [hpc', eq_comm] using hpc
  · simp [hpc'] at hpc

theorem retrying_beside {s' : NVRecEngine} (h : Retrying start value s) (husable : s'.Usable)
    (hbeside : Beside s s') : Retrying start value s' := by
  refine ⟨husable, ?_, ?_, fun f hf => ?_, fun ho => ?_, ?_⟩
  · rw [hbeside.poolCounter]
    exact h.counter
  · rw [hbeside.created]
    exact h.created
  · rw [hbeside.poolCounter]
    exact h.files f (hbeside.files f hf)
  · rw [hbeside.poolCounter, hbeside.pool]
    rw [Opening, hbeside.client] at ho
    exact h.new ho
  · have hclient := hbeside.client
    rcases h.phase with hpc | ⟨hcounter, hpc⟩ | ⟨hpc, hstored⟩
    · exact .transacting (hclient.trans hpc)
    · refine .between ?_ ?_
      · rw [hbeside.poolCounter]
        exact hcounter
      · rw [hclient]
        exact hpc
    · exact .returned (hclient.trans hpc) (stored_beside hbeside hstored)

/-- A pool opened under the first free number is a new one. -/
theorem retrying_next (h : Retrying start value s) (hpc : s.client = .opening value)
    {s' : NVRecEngine}
    (hmade : { s with poolCounter := s.poolCounter + 1 }.PoolMade
      (poolPath (s.poolCounter + 1)) s') :
    Retrying start value (s'.started (.transacting value)) := by
  have hbase := SameWorld.counted s
  have hfiles := madeFiles h.usable.ownership hbase hmade
  have husable : (s'.started (.transacting value)).Usable :=
    usable_clientMoved h.usable (.next value hpc s' hmade)
  have hroom := (h.phase.of_between (Or.inr (Or.inr hpc))).2
  have hcount : (s'.started (.transacting value)).poolCounter = s.poolCounter + 1 := by
    cases hmade <;> rfl
  refine ⟨husable, ?_, h.created.trans hfiles.created, fun f hf => ?_, fun _ hlast => ?_,
    .transacting rfl⟩
  · omega
  · rw [hcount]
    rcases hfiles.new f hf with hold | rfl
    · rcases h.files f hold with hstart | ⟨n, hn, hpath⟩
      · exact Or.inl hstart
      · exact Or.inr ⟨n, Nat.le_succ_of_le hn, hpath⟩
    · exact Or.inr ⟨s.poolCounter + 1, le_refl _, rfl⟩
  · rw [hcount] at hlast
    cases hmade with
    | created _ => exact h.created
    | opened id hfile =>
      exfalso
      rcases h.files _ hfile with hstart | ⟨n, hn, hpath⟩
      · refine start.poolsAhead_spec.2 _ hstart ?_
        show poolPath (s.poolCounter + 1) = _
        congr 1
        omega
      · have heq : s.poolCounter + 1 = n := poolPath_injective hpath
        omega

/-- A transaction that aborts is not the first on a new pool. -/
theorem counter_of_abort (h : Retrying start value s) {v : Tuple} (hpc : s.client = .transacting v)
    {env : ClientEnv} (hserves : Serves start.created s (.client env))
    (habort : commits s (.tick (.client env)) = none) :
    s.poolCounter ≤ start.poolCounter + start.poolsAhead := by
  by_contra hlast
  have hopening := not_opening_of_client hpc rfl
  have hcounter := h.counter
  have hnew : start.created ≤ s.pool := h.new hopening (by omega)
  have hcommits : env.commits = true := hserves.2 env rfl (by rw [hpc]; rfl) hnew
  have hopen := (h.usable.ownership.current hopening).isOpen
  simp [commits, hpc, hopen, hcommits] at habort

theorem retrying_clientStep (h : Retrying start value s) {env : ClientEnv}
    (hserves : Serves start.created s (.client env)) :
    Retrying start value (s.clientStep env) := by
  have hmoved := clientStep_moved h.usable hserves.1
  have husable := usable_clientMoved h.usable hmoved
  have habort := fun v hpc => counter_of_abort (v := v) h hpc hserves
  generalize commits s (.tick (.client env)) = commit at hmoved habort
  generalize s.clientStep env = s' at hmoved husable ⊢
  cases hmoved with
  | stay => exact h
  | insert v hpc _ =>
    obtain rfl := h.phase.of_transacting hpc
    exact ⟨husable, h.counter, h.created, h.files, fun _ => h.new (not_opening_of_client hpc rfl),
      .returned rfl (stored_inserted h.usable v)⟩
  | update v ptr hpc hptr =>
    obtain rfl := h.phase.of_transacting hpc
    exact ⟨husable, h.counter, h.created, h.files, fun _ => h.new (not_opening_of_client hpc rfl),
      .returned rfl (stored_updated h.usable hptr)⟩
  | abort v hpc =>
    obtain rfl := h.phase.of_transacting hpc
    exact ⟨husable, h.counter, h.created, h.files, fun _ => h.new (not_opening_of_client hpc rfl),
      .between (habort v hpc rfl) (Or.inl rfl)⟩
  | join v hpc _ =>
    obtain ⟨rfl, hroom⟩ := h.phase.of_between (Or.inl hpc)
    exact ⟨husable, h.counter, h.created, h.files, fun _ => h.new (not_opening_of_client hpc rfl),
      .between hroom (Or.inr (Or.inl rfl))⟩
  | launch v hpc =>
    obtain ⟨rfl, hroom⟩ := h.phase.of_between (Or.inr (Or.inl hpc))
    exact ⟨husable, h.counter, h.created, h.files, fun ho => absurd ⟨v, rfl⟩ ho,
      .between hroom (Or.inr (Or.inr rfl))⟩
  | next v hpc s'' hmade =>
    obtain ⟨rfl, -⟩ := h.phase.of_between (Or.inr (Or.inr hpc))
    exact retrying_next h hpc hmade

theorem retrying_tick (h : Retrying start value s) {t : Tick}
    (hserves : Serves start.created s t) : Retrying start value (tick s t) := by
  cases t with
  | client env => exact retrying_clientStep h hserves
  | flush i env =>
    exact retrying_beside h (usable_flushStep h.usable i hserves.1) (flushStep_beside s i env)

theorem retrying_call (h : s.Usable) (hidle : s.client.isIdle = true) (value : Tuple) :
    Retrying s value (step s (.call value)) := by
  have husable := usable_call h hidle value
  rw [step, if_pos hidle]
  refine ⟨husable, ?_, le_refl _, fun f hf => Or.inl hf, fun _ hlast => ?_, .transacting rfl⟩
  · show s.poolCounter ≤ _
    omega
  · change s.poolCounter = _ at hlast
    omega

/-! ### Every move brings the call closer to its end -/

/-- The steps left to the flush that the engine has started last. -/
def flushLeft (s : NVRecEngine) : Nat :=
  match s.flushResult with
  | none => 0
  | some i => stepsLeft (s.flushList i) (s.flushes i).pc

/-- The steps left to the client before it opens the next pool. -/
def clientLeft (s : NVRecEngine) : Nat :=
  match s.client with
  | .idle _ => 0
  | .transacting _ => 3
  | .waiting _ => 2
  | .launching _ => 1
  | .opening _ => 0

/-- The pools left to try, the steps of the client, the steps of the flush. -/
def progress (start s : NVRecEngine) : Nat ×ₗ Nat ×ₗ Nat :=
  toLex (start.poolCounter + start.poolsAhead + 1 - s.poolCounter,
    toLex (s.clientLeft, s.flushLeft))

theorem progress_flush (h : s.Usable) {i : Nat} {env : FlushEnv} (hok : (Tick.flush i env).Ok)
    (hmoves : s.flushStep env i ≠ s) : progress start (s.flushStep env i) < progress start s := by
  have hrunning : i < s.launched ∧ (s.flushes i).pc.isFinished = false := by
    by_contra hstill
    exact hmoves (flushStep_of_not_unfinished env hstill)
  obtain ⟨hi, hunfinished⟩ := hrunning
  have hfuture := (h.ownership.pending i hi hunfinished).future
  have hsteps := stepsLeft_flushStep h hi hunfinished hok
  have hbeside := flushStep_beside s i env
  generalize s.flushStep env i = s' at hsteps hbeside ⊢
  have hless : s'.flushLeft < s.flushLeft := by
    rw [flushLeft, flushLeft, hbeside.flushResult, hfuture]
    show stepsLeft (s'.flushList i) (s'.flushes i).pc < stepsLeft (s.flushList i) (s.flushes i).pc
    omega
  rw [progress, progress, clientLeft, clientLeft, hbeside.poolCounter, hbeside.client]
  exact Prod.Lex.toLex_lt_toLex.mpr
    (Or.inr ⟨rfl, Prod.Lex.toLex_lt_toLex.mpr (Or.inr ⟨rfl, hless⟩)⟩)

/-- A step of the client with the same pools left to try. -/
theorem progress_of_clientLeft {s' : NVRecEngine} (hcounter : s'.poolCounter = s.poolCounter)
    (hless : s'.clientLeft < s.clientLeft) : progress start s' < progress start s := by
  rw [progress, progress, hcounter]
  exact Prod.Lex.toLex_lt_toLex.mpr (Or.inr ⟨rfl, Prod.Lex.toLex_lt_toLex.mpr (Or.inl hless)⟩)

theorem progress_clientStep (h : Retrying start value s) {env : ClientEnv}
    (hserves : Serves start.created s (.client env)) (hmoves : s.clientStep env ≠ s) :
    (s.clientStep env).client.isIdle = true ∨
      progress start (s.clientStep env) < progress start s := by
  have hmoved := clientStep_moved h.usable hserves.1
  generalize commits s (.tick (.client env)) = commit at hmoved
  generalize s.clientStep env = s' at hmoved hmoves ⊢
  cases hmoved with
  | stay => exact absurd rfl hmoves
  | insert v hpc _ => exact Or.inl rfl
  | update v ptr hpc _ => exact Or.inl rfl
  | abort v hpc =>
    refine Or.inr (progress_of_clientLeft rfl ?_)
    simp [clientLeft, hpc]
  | join v hpc _ =>
    refine Or.inr (progress_of_clientLeft rfl ?_)
    simp [clientLeft, hpc]
  | launch v hpc =>
    refine Or.inr (progress_of_clientLeft rfl ?_)
    simp [clientLeft, hpc, launchFlush]
  | next v hpc s'' hmade =>
    right
    obtain ⟨-, hroom⟩ := h.phase.of_between (Or.inr (Or.inr hpc))
    have hcount : s''.poolCounter = s.poolCounter + 1 := by cases hmade <;> rfl
    refine Prod.Lex.toLex_lt_toLex.mpr (Or.inl ?_)
    show _ - s''.poolCounter < _
    omega

/-- **A step that moves ends the call or brings it closer to its end.** -/
theorem progress_tick (h : Retrying start value s) {t : Tick} (hserves : Serves start.created s t)
    (hmoves : tick s t ≠ s) :
    (tick s t).client.isIdle = true ∨ progress start (tick s t) < progress start s := by
  cases t with
  | client env => exact progress_clientStep h hserves hmoves
  | flush i env => exact Or.inr (progress_flush h.usable hserves.1 hmoves)

/-! ### Some thread always moves -/

theorem transact_client_ne (env : ClientEnv) :
    (s.transact env value).client ≠ .transacting value := by
  rw [transact]
  split_ifs
  · simp
  · cases s.lookupTable value.key <;> simp
  · simp

/-- The client moves, whatever its tick. -/
theorem exists_thread_of_client {known : PoolId}
    (hmoves : ∀ env : ClientEnv, env.opens = true → (s.clientStep env).client ≠ s.client) :
    ∃ k, Enabled tick Tick.thread s k ∧
      ∀ t : Tick, t.thread = k → Serves known s t → tick s t ≠ s := by
  refine ⟨.client, ⟨.client {}, rfl, fun hstay => ?_⟩, fun t ht hserves hstay => ?_⟩
  · exact hmoves {} rfl (congrArg NVRecEngine.client hstay)
  · cases t with
    | client env => exact hmoves env hserves.1 (congrArg NVRecEngine.client hstay)
    | flush i env => cases ht

/-- A flush that is not finished moves, whatever its tick. -/
theorem exists_thread_of_flush (h : s.Usable) {known : PoolId} {i : Nat} (hi : i < s.launched)
    (hunfinished : (s.flushes i).pc.isFinished = false) :
    ∃ k, Enabled tick Tick.thread s k ∧
      ∀ t : Tick, t.thread = k → Serves known s t → tick s t ≠ s := by
  have hmoves : ∀ env : FlushEnv, (Tick.flush i env).Ok → s.flushStep env i ≠ s := by
    intro env hok hstay
    have hsteps := stepsLeft_flushStep h hi hunfinished hok
    rw [hstay] at hsteps
    omega
  refine ⟨.flush i, ⟨.flush i {}, rfl, hmoves {} ⟨rfl, rfl, rfl⟩⟩, fun t ht hserves => ?_⟩
  cases t with
  | client env => cases ht
  | flush j env =>
    obtain rfl := Thread.flush.inj ht
    exact hmoves env hserves.1

/-- **No deadlock**: until the call returns, the client or the flush it waits for
    can move. -/
theorem exists_thread (h : Retrying start value s) (hrunning : ¬s.client.isIdle = true)
    (known : PoolId) :
    ∃ k, Enabled tick Tick.thread s k ∧
      ∀ t : Tick, t.thread = k → Serves known s t → tick s t ≠ s := by
  rcases h.phase with hpc | ⟨-, hpc | hpc | hpc⟩ | ⟨hpc, -⟩
  · refine exists_thread_of_client fun env _ => ?_
    rw [clientStep, hpc]
    exact transact_client_ne env
  · cases hfuture : s.flushResult with
    | none =>
      refine exists_thread_of_client fun env _ => ?_
      rw [clientStep, hpc]
      simp [awaitFlush, hfuture]
    | some i =>
      have hi := h.usable.ownership.future i hfuture
      cases hfin : (s.flushes i).pc.isFinished with
      | false => exact exists_thread_of_flush h.usable hi hfin
      | true =>
        have hresult := (h.usable.ended i hi hfin).result
        refine exists_thread_of_client fun env _ => ?_
        rw [clientStep, hpc]
        simp [awaitFlush, hfuture, hresult]
  · refine exists_thread_of_client fun env _ => ?_
    rw [clientStep, hpc]
    simp [launchFlush]
  · refine exists_thread_of_client fun env hopens => ?_
    rw [clientStep, hpc]
    obtain ⟨s', -, hs'⟩ := openNextPool_made s hopens value
    simp [hs']
  · rw [hpc] at hrunning
    exact absurd rfl hrunning

/-! ### The call -/

theorem idle_tick (hidle : s.client.isIdle = true) (t : Tick) :
    (tick s t).client.isIdle = true := by
  cases t with
  | client env =>
    cases hpc : s.client with
    | idle r => simp [tick, clientStep, hpc, ClientPc.isIdle]
    | _ =>
      rw [hpc] at hidle
      cases hidle
  | flush i env =>
    rw [tick, (flushStep_beside s i env).client]
    exact hidle

/-- **`PersistRaw` terminates.**  Over any usable engine, for any tuple and any
    weakly fair schedule of working devices on which a new pool takes one tuple:
    from some time on the call has returned `kSuccess`, its tuple is in the list of
    the current pool where the table says, and `PersistRaw` has called itself at
    most once more often than there are pool files ahead. -/
theorem persistRaw_terminates (h : s.Usable) (hidle : s.client.isIdle = true) (value : Tuple)
    {schedule : Nat → Tick}
    (hserves : ∀ n, Serves s.created (stateAt tick (step s (.call value)) schedule n) (schedule n))
    (hfair : WeaklyFair tick Tick.thread (step s (.call value)) schedule) :
    ∃ n, ∀ n' ≥ n, ∃ s',
      persistRaw ((List.range n').map schedule) s value = (.returned .kSuccess, s') ∧
      s'.Stored value ∧
      (step s (.call value)).recursions ((List.range n').map schedule) ≤ s.poolsAhead + 1 := by
  have hcall := retrying_call h hidle value
  have hretrying := stateAt_invariant (J := Retrying s value)
    (fun _ _ hr hserves => retrying_tick hr hserves) hcall hserves
  obtain ⟨n, hn⟩ := reaches_of_measure (fun u => u.client.isIdle = true) (progress s)
    (fun _ _ hr hserves => retrying_tick hr hserves)
    (fun _ _ hr _ hserves hmoves => progress_tick hr hserves hmoves)
    (fun _ hr hrunning => exists_thread hr hrunning s.created) hcall hserves hfair
  refine ⟨n, fun n' hle => ?_⟩
  have hended : (stateAt tick (step s (.call value)) schedule n').client.isIdle = true := by
    induction n', hle using Nat.le_induction with
    | base => exact hn
    | succ n' _ ih => exact idle_tick ih (schedule n')
  have hok : ∀ t ∈ (List.range n').map schedule, t.Ok := by
    intro t ht
    obtain ⟨m, -, rfl⟩ := List.mem_map.mp ht
    exact (hserves m).1
  have hcount := poolCounter_run (s := step s (.call value)) hok
  have hstart : (step s (.call value)).poolCounter = s.poolCounter := by
    rw [step, if_pos hidle]
  have hnow := hretrying n'
  rw [stateAt_eq_run] at hended hnow
  generalize hrun : run tick (step s (.call value)) ((List.range n').map schedule) = s' at *
  have hbound := hnow.counter
  rcases hnow.phase with hpc | ⟨-, hpc⟩ | ⟨hpc, hstored⟩
  · rw [hpc] at hended
    cases hended
  · rcases hpc with hpc | hpc | hpc <;> (rw [hpc] at hended; cases hended)
  · refine ⟨s', ?_, hstored, by omega⟩
    rw [persistRaw, if_pos hidle, hrun]
    simp only [hpc]

/-- A schedule on which every thread takes infinitely many steps. -/
def everyThread (n : Nat) : Tick :=
  match (Nat.unpair n).1 with
  | 0 => .client {}
  | i + 1 => .flush i {}

theorem everyThread_recurrent (k : Thread) (n : Nat) : ∃ n' ≥ n, (everyThread n').thread = k := by
  cases k with
  | client => exact ⟨Nat.pair 0 n, Nat.right_le_pair 0 n, by simp [everyThread, Tick.thread]⟩
  | flush i =>
    exact ⟨Nat.pair (i + 1) n, Nat.right_le_pair (i + 1) n, by simp [everyThread, Tick.thread]⟩

theorem serves_everyThread (known : PoolId) (s : NVRecEngine) (n : Nat) :
    Serves known s (everyThread n) := by
  rw [everyThread]
  split
  · refine ⟨rfl, fun env henv _ _ => ?_⟩
    obtain rfl := Tick.client.inj henv
    rfl
  · refine ⟨⟨rfl, rfl, rfl⟩, fun env henv => ?_⟩
    cases henv

/-- A pool of two nodes. -/
def twoNodes (key : UInt64) : Pool :=
  { list := ((({} : PersistentList).insert { key := key }).2.insert { key := key + 1 }).2 }

/-- A process that finds two pools, one of them ahead of its counter. -/
def secondProcess : NVRecEngine :=
  boot (fun id => if id = 0 then twoNodes 1 else twoNodes 3) 2 [(poolPath 0, 0), (poolPath 1, 1)] []

theorem usable_secondProcess : secondProcess.Usable := by
  refine usable_boot [] (fun id => ?_) (by decide) (by decide) (by decide)
  show (if id = 0 then twoNodes 1 else twoNodes 3).list.WellFormed
  split <;> exact wellFormed_insert (wellFormed_insert wellFormed_empty _) _

/-- Both pools are full.  The first is handed to a flush, and the second is found
    full while that flush is in its list; it is handed over once the first flush
    has unlinked its pool, and a third pool takes the tuple. -/
def fullPools : List Tick :=
  [.client { commits := false }, .client {}, .client {}, .client {}, .flush 0 {}, .flush 0 {},
    .client { commits := false }, .client {}] ++ List.replicate 7 (.flush 0 {}) ++
    [.client {}, .client {}, .flush 1 {}, .client {}, .flush 1 {}, .client {}]

theorem persistRaw_terminates_fullPools :
    secondProcess.poolsAhead = 1 ∧
    (step secondProcess (.call { key := 1 })).recursions fullPools = 2 ∧
    ∃ n, ∀ n' ≥ n, ∃ s',
      persistRaw ((List.range n').map (followedBy fullPools everyThread)) secondProcess
        { key := 1 } = (.returned .kSuccess, s') ∧
      s'.Stored { key := 1 } ∧
      (step secondProcess (.call { key := 1 })).recursions
        ((List.range n').map (followedBy fullPools everyThread)) ≤ secondProcess.poolsAhead + 1 :=
  ⟨by decide +kernel, by decide +kernel,
    persistRaw_terminates usable_secondProcess rfl { key := 1 }
      (followedBy_steps (by decide +kernel) (serves_everyThread _))
      (weaklyFair_of_recurrent (followedBy_recurrent everyThread_recurrent fullPools))⟩

end NVRecEngine

end NvrecYcsb.NvRec
