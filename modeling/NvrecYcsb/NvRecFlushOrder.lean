/-
  NvrecYcsb/NvRecFlushOrder.lean
  ==============================
  **Asynchronous flushes are ordered and lossless** within one session.

  Without a restart the engine has at most two pool files, the current one and
  the one being flushed, and the lookup table names every node of the current
  pool (`OneSession`).  So a node added is the only node of its key, every pool
  handed over lists each key once with the last tuple stored there (`Epochs`),
  and the disk log is the pools handed over, in order, up to a prefix of the last
  (`orderedLossless_of_noRestart`).
-/
import NvrecYcsb.NvRecRestart

namespace NvrecYcsb.NvRec

open CppRuntime RecoveryDefs RecoveryInterface ListPool PersistentList KeyedLog NVRecEngine Runs
  Framing

namespace NVRecEngine

variable {s : NVRecEngine}

/-! ### One session -/

/-- Only the current pool has not been handed over, and the table names its nodes. -/
structure OneSession (s : NVRecEngine) : Prop where
  own : ¬s.Opening → s.ownFiles = [(poolPath s.poolCounter, s.pool)]
  handedOver : s.Opening → s.ownFiles = [] ∧ s.pool ∈ s.handedPools
  indexed : ¬s.Opening → ∀ t ∈ s.tuplesOf s.pool, s.lookupTable t.key ≠ none

theorem OneSession.unflushed (hone : s.OneSession) (hopening : ¬s.Opening) :
    s.unflushed = s.tuplesOf s.pool := by
  rw [NVRecEngine.unflushed, hone.own hopening, List.flatMap_singleton]

theorem OneSession.noNode (hone : s.OneSession) (hopening : ¬s.Opening) {k : UInt64}
    (hnew : s.lookupTable k = none) : s.NoNode k := by
  rw [NoNode, hone.unflushed hopening]
  rintro t ht rfl
  exact hone.indexed hopening t ht hnew

theorem oneSession_flushStep (h : s.Inv) (hone : s.OneSession) (i : Nat) {env : FlushEnv}
    (hok : (Tick.flush i env).Ok) : (s.flushStep env i).OneSession := by
  have hframe := flushFrame h i hok
  generalize s.flushStep env i = s' at hframe ⊢
  have hiff : s'.Opening ↔ s.Opening := by rw [Opening, hframe.client, Opening]
  refine ⟨fun ho => ?_, fun ho => ?_, fun ho => ?_⟩
  · rw [hframe.ownFiles, hframe.poolCounter, hframe.pool]
    exact hone.own fun hs => ho (hiff.mpr hs)
  · rw [hframe.ownFiles, hframe.pool, hframe.handedPools]
    exact hone.handedOver (hiff.mp ho)
  · rw [hframe.tuplesOf, hframe.pool, hframe.lookupTable]
    exact hone.indexed fun hs => ho (hiff.mpr hs)

theorem oneSession_of_client {s' : NVRecEngine} (hone : s.OneSession) (hs : ¬s.Opening)
    (hs' : ¬s'.Opening) (hown : s'.ownFiles = s.ownFiles) (hpool : s'.pool = s.pool)
    (hcounter : s'.poolCounter = s.poolCounter)
    (hindexed : ∀ t ∈ s'.tuplesOf s'.pool, s'.lookupTable t.key ≠ none) : s'.OneSession := by
  refine ⟨fun _ => ?_, fun ho => absurd ho hs', fun _ => hindexed⟩
  rw [hown, hpool, hcounter]
  exact hone.own hs

theorem oneSession_inserted (h : s.Inv) (hone : s.OneSession) {value : Tuple}
    (hpc : s.client = .transacting value) : (s.inserted value).OneSession := by
  have hopening := not_opening_of_client hpc rfl
  refine oneSession_of_client hone hopening (not_opening_of_client rfl rfl) rfl rfl rfl
    fun t ht => ?_
  have htuples : t ∈ value :: s.tuplesOf s.pool := by
    rw [tuplesOf, ← tuples_insert (h.lists s.pool)]
    exact (committed_tuplesOf_pool (s := s)) ▸ ht
  show Function.update s.lookupTable value.key _ t.key ≠ none
  by_cases hkey : t.key = value.key
  · rw [hkey, Function.update_self]
    exact Option.some_ne_none _
  · rw [Function.update_of_ne hkey]
    rcases List.mem_cons.mp htuples with rfl | ht
    · exact absurd rfl hkey
    · exact hone.indexed hopening t ht

theorem oneSession_updated (h : s.Inv) (hone : s.OneSession) {value : Tuple} {ptr : Ptr}
    (hpc : s.client = .transacting value) (hptr : s.lookupTable value.key = some ptr) :
    (s.updated ptr value).OneSession := by
  have hopening := not_opening_of_client hpc rfl
  obtain ⟨m, hm, hmkey⟩ := h.lookup _ _ hptr
  obtain ⟨c, d, htuples, hset⟩ := tuples_setObj (h.lists s.pool) hm hmkey
  refine oneSession_of_client hone hopening (not_opening_of_client rfl rfl) rfl rfl rfl
    fun t ht => ?_
  have hmem : t ∈ c ++ value :: d := by
    rw [← hset]
    exact (committed_tuplesOf_pool (s := s)) ▸ ht
  show s.lookupTable t.key ≠ none
  rcases List.mem_append.mp hmem with hc | hd
  · exact hone.indexed hopening t (by rw [tuplesOf, htuples]; exact List.mem_append_left _ hc)
  · rcases List.mem_cons.mp hd with rfl | hd
    · rw [hptr]
      exact Option.some_ne_none _
    · refine hone.indexed hopening t ?_
      rw [tuplesOf, htuples]
      exact List.mem_append_right _ (List.mem_cons_of_mem _ hd)

theorem oneSession_launchFlush (h : s.Inv) (hone : s.OneSession) {value : Tuple}
    (hpc : s.client = .launching value) : (s.launchFlush value).OneSession := by
  have hopening := not_opening_of_client hpc rfl
  have hnow : (s.launchFlush value).Opening := ⟨value, rfl⟩
  obtain ⟨a, b, hab, hne⟩ := exists_ownFiles h hopening
  refine ⟨fun ho => absurd hnow ho, fun _ => ⟨?_, ?_⟩, fun ho => absurd hnow ho⟩
  · rw [ownFiles_launchFlush hab hne]
    rw [hone.own hopening] at hab
    cases a with
    | nil => rw [List.nil_append, (List.cons.inj hab).2]
    | cons f a => cases a <;> cases (List.cons.inj hab).2
  · rw [launchFlush_handedPools]
    exact List.mem_append_right _ List.mem_cons_self

theorem next_created (h : s.Inv) (hone : s.OneSession) (hopening : s.Opening) {id : PoolId}
    (hfile : (poolPath (s.poolCounter + 1), id) ∈ s.files) : False := by
  have hhanded : id ∈ s.handedPools := by
    by_contra hid
    have hown : (poolPath (s.poolCounter + 1), id) ∈ s.ownFiles :=
      List.mem_filter.mpr ⟨hfile, by simpa using hid⟩
    rw [(hone.handedOver hopening).1] at hown
    cases hown
  obtain ⟨j, hj, hpool⟩ := mem_handedPools.mp hhanded
  cases hfin : (s.flushes j).pc.isFinished with
  | true => exact (h.ended j hj hfin).unlinked _ hfile hpool.symm
  | false =>
    have hpend := h.pending j hj hfin
    have hsame := h.ownership.file_of_pool hpend.file hfile hpool
    have hpath : (s.flushes j).poolPath = poolPath (s.poolCounter + 1) := congrArg Prod.fst hsame
    rw [hpend.path hopening] at hpath
    exact poolPath_succ_ne _ hpath.symm

theorem oneSession_clientMoved (h : s.Inv) (hone : s.OneSession) {commit : Option Tuple}
    {s' : NVRecEngine} (hmoved : ClientMoved s commit s') : s'.OneSession := by
  cases hmoved with
  | stay => exact hone
  | insert value hpc _ => exact oneSession_inserted h hone hpc
  | update value ptr hpc hptr => exact oneSession_updated h hone hpc hptr
  | abort value hpc =>
    have hopening := not_opening_of_client hpc rfl
    exact oneSession_of_client hone hopening (not_opening_of_client rfl rfl) rfl rfl rfl
      (hone.indexed hopening)
  | join value hpc _ =>
    have hopening := not_opening_of_client hpc rfl
    exact oneSession_of_client hone hopening (not_opening_of_client rfl rfl) rfl rfl rfl
      (hone.indexed hopening)
  | launch value hpc => exact oneSession_launchFlush h hone hpc
  | next value hpc s' hmade =>
    have hopening : s.Opening := ⟨value, hpc⟩
    have hbase := SameWorld.counted s
    have hcounter : s'.poolCounter = s.poolCounter + 1 := by cases hmade <;> rfl
    have hidle : ¬(s'.started (.transacting value)).Opening :=
      not_opening_of_client rfl rfl
    rcases ownFiles_poolMade (c := .transacting value) h hbase hmade with
      ⟨-, hfile⟩ | ⟨hown, hempty, -⟩
    · exact (next_created h hone hopening hfile).elim
    · refine ⟨fun _ => ?_, fun ho => absurd ho hidle, fun _ t ht => ?_⟩
      · show (s'.started (.transacting value)).ownFiles = [(poolPath s'.poolCounter, s'.pool)]
        rw [hown, (hone.handedOver hopening).1, hcounter]
        rfl
      · have hnil : t ∈ s'.tuplesOf s'.pool := ht
        rw [hempty] at hnil
        cases hnil

theorem oneSession_fresh : fresh.OneSession := by
  have hidle : ¬fresh.Opening := not_opening_of_client rfl rfl
  refine ⟨fun _ => by decide, fun ho => absurd ho hidle, fun _ t ht => ?_⟩
  rw [tuplesOf, fresh_pools, tuples_empty] at ht
  cases ht

end NVRecEngine

/-! ### Epochs -/

namespace History

/-- The tuples committed to one pool, oldest first. -/
def storedIn (h : History) (id : PoolId) : List Tuple :=
  (h.stored.filter fun e => e.1 = id).map Prod.snd

end History

/-- Each pool lists the last tuple stored in it for each of its keys, once. -/
structure Epochs (h : History) : Prop where
  lists : ∀ id < h.engine.created,
    Lists Tuple.key (fun k => lastFor Tuple.key k (h.storedIn id)) (h.engine.tuplesOf id)
  known : ∀ e ∈ h.stored, e.1 < h.engine.created

/-- What holds in one session: the engine follows its calls, and its pools are
    epochs of the history. -/
structure SessionInv (h : History) : Prop where
  calls : FollowsCalls h
  session : h.engine.OneSession
  epochs : Epochs h

theorem lastFor_snoc (log : List Tuple) (t : Tuple) :
    (fun k => lastFor Tuple.key k (log ++ [t])) =
      Function.update (fun k => lastFor Tuple.key k log) t.key (some t) := by
  funext k
  rw [lastFor_append]
  by_cases hk : k = t.key
  · subst hk
    rw [Function.update_self, lastFor_singleton_self, Option.some_or]
  · rw [Function.update_of_ne hk, lastFor_singleton_ne (Ne.symm hk), Option.none_or]

namespace History

variable {h : History} {a : Action}

theorem storedIn_step_of_none (hcommit : commits h.engine a = none) (id : PoolId) :
    (h.step a).storedIn id = h.storedIn id := by
  simp [storedIn, step, hcommit]

theorem storedIn_step_self {value : Tuple} (hcommit : commits h.engine a = some value) :
    (h.step a).storedIn h.engine.pool = h.storedIn h.engine.pool ++ [value] := by
  simp [storedIn, step, hcommit]

theorem storedIn_step_ne {value : Tuple} (hcommit : commits h.engine a = some value) {id : PoolId}
    (hid : id ≠ h.engine.pool) : (h.step a).storedIn id = h.storedIn id := by
  simp [storedIn, step, hcommit, Ne.symm hid]

theorem storedIn_of_known (hknown : ∀ e ∈ h.stored, e.1 < h.engine.created) :
    h.storedIn h.engine.created = [] := by
  rw [storedIn, List.map_eq_nil_iff, List.filter_eq_nil_iff]
  intro e he heq
  exact Nat.ne_of_lt (hknown e he) (decide_eq_true_eq.mp heq)

end History

theorem epochs_of_none {h : History} {a : Action} (he : Epochs h)
    (hcommit : commits h.engine a = none)
    (hcreated : h.engine.created ≤ (NvRec.step h.engine a).created)
    (hold : ∀ id < h.engine.created, (NvRec.step h.engine a).tuplesOf id = h.engine.tuplesOf id)
    (hnew : ∀ id < (NvRec.step h.engine a).created, id < h.engine.created ∨
      (id = h.engine.created ∧ (NvRec.step h.engine a).tuplesOf id = [])) :
    Epochs (h.step a) := by
  refine ⟨fun id hid => ?_, fun e hmem => ?_⟩
  · show Lists _ _ ((NvRec.step h.engine a).tuplesOf id)
    simp only [History.storedIn_step_of_none hcommit]
    rcases hnew id hid with hlt | ⟨rfl, hempty⟩
    · rw [hold id hlt]
      exact he.lists id hlt
    · rw [hempty, History.storedIn_of_known he.known]
      exact lists_empty
  · have hstored : (h.step a).stored = h.stored := by simp [History.step, hcommit]
    rw [hstored] at hmem
    exact Nat.lt_of_lt_of_le (he.known e hmem) hcreated

theorem epochs_of_commit {h : History} {a : Action} {value : Tuple} (he : Epochs h)
    (hpool : h.engine.pool < h.engine.created) (hcommit : commits h.engine a = some value)
    (hcreated : (NvRec.step h.engine a).created = h.engine.created)
    (hother : ∀ id, id ≠ h.engine.pool →
      (NvRec.step h.engine a).tuplesOf id = h.engine.tuplesOf id)
    (hlists : ∀ m : UInt64 → Option Tuple,
      Lists Tuple.key m (h.engine.tuplesOf h.engine.pool) →
      Lists Tuple.key (Function.update m value.key (some value))
        ((NvRec.step h.engine a).tuplesOf h.engine.pool)) : Epochs (h.step a) := by
  refine ⟨fun id hid => ?_, fun e hmem => ?_⟩
  · change id < (NvRec.step h.engine a).created at hid
    rw [hcreated] at hid
    show Lists _ _ ((NvRec.step h.engine a).tuplesOf id)
    by_cases hsame : id = h.engine.pool
    · subst hsame
      simp only [History.storedIn_step_self hcommit]
      rw [lastFor_snoc]
      exact hlists _ (he.lists _ hid)
    · simp only [History.storedIn_step_ne hcommit hsame]
      rw [hother id hsame]
      exact he.lists id hid
  · show e.1 < (NvRec.step h.engine a).created
    rw [hcreated]
    have hstored : (h.step a).stored = h.stored ++ [(h.engine.pool, value)] := by
      simp [History.step, hcommit]
    rw [hstored] at hmem
    rcases List.mem_append.mp hmem with hmem | hmem
    · exact he.known e hmem
    · rw [List.mem_singleton.mp hmem]
      exact hpool

theorem epochs_clientStep {h : History} (he : Epochs h) (hinv : h.engine.Inv)
    (hone : h.engine.OneSession) {env : ClientEnv} (hok : (Tick.client env).Ok) :
    Epochs (h.step (.tick (.client env))) := by
  have hmoved := clientStep_moved hinv.usable hok
  have hnext : NvRec.step h.engine (.tick (.client env)) = h.engine.clientStep env := rfl
  generalize hcommit : commits h.engine (.tick (.client env)) = commit at hmoved
  rw [← hnext] at hmoved
  have hsame : ∀ {s' : NVRecEngine}, NvRec.step h.engine (.tick (.client env)) = s' →
      s'.created = h.engine.created → s'.tuplesOf = h.engine.tuplesOf → commit = none →
      Epochs (h.step (.tick (.client env))) := by
    intro s' hs' hcreated htuples hnone
    refine epochs_of_none he (hcommit.trans hnone) (by rw [hs', hcreated])
      (fun id _ => by rw [hs', htuples]) fun id hid => Or.inl ?_
    rwa [hs', hcreated] at hid
  generalize hs' : NvRec.step h.engine (.tick (.client env)) = s' at hmoved
  cases hmoved with
  | stay => exact hsame hs' rfl rfl rfl
  | abort value hpc => exact hsame hs' rfl rfl rfl
  | join value hpc hfinished => exact hsame hs' rfl rfl rfl
  | launch value hpc => exact hsame hs' rfl rfl rfl
  | insert value hpc hnew =>
    have hopening := not_opening_of_client hpc rfl
    have hclear : ∀ t ∈ [] ++ h.engine.tuplesOf h.engine.pool, t.key ≠ value.key := by
      have hnode := hone.noNode hopening hnew
      rw [NoNode, hone.unflushed hopening] at hnode
      exact hnode
    refine epochs_of_commit he (hinv.known _ (hinv.current hopening).file) hcommit
      (by rw [hs']; rfl) (fun id hid => by rw [hs']; exact committed_tuplesOf_ne hid)
      fun m hm => ?_
    have htuples : (h.engine.inserted value).tuplesOf h.engine.pool =
        value :: h.engine.tuplesOf h.engine.pool :=
      committed_tuplesOf_pool.trans (tuples_insert (hinv.lists _) value)
    rw [hs', htuples]
    exact hm.insert (A := []) hclear
  | update value ptr hpc hptr =>
    have hopening := not_opening_of_client hpc rfl
    obtain ⟨n, hn, hnkey⟩ := hinv.lookup _ _ hptr
    obtain ⟨c, d, htuples, hset⟩ := tuples_setObj (hinv.lists h.engine.pool) hn hnkey
    refine epochs_of_commit he (hinv.known _ (hinv.current hopening).file) hcommit
      (by rw [hs']; rfl) (fun id hid => by rw [hs']; exact committed_tuplesOf_ne hid)
      fun m hm => ?_
    have hnew : (h.engine.updated ptr value).tuplesOf h.engine.pool = c ++ value :: d :=
      committed_tuplesOf_pool.trans hset
    rw [tuplesOf, htuples] at hm
    rw [hs', hnew]
    exact hm.replace hnkey
  | next value hpc s'' hmade =>
    have hbase := SameWorld.counted h.engine
    have hold : ∀ id < h.engine.created,
        (s''.started (.transacting value)).tuplesOf id = h.engine.tuplesOf id := fun id hid => by
      show (s''.pools id).list.tuples = _
      rw [poolMade_list hbase hmade hid, tuplesOf]
    refine epochs_of_none he hcommit ?_ (fun id hid => ?_) fun id hid => ?_
    · rw [hs']
      exact (madeFiles hinv.ownership hbase hmade).created
    · rw [hs']
      exact hold id hid
    · rw [hs'] at hid ⊢
      cases hmade with
      | opened new _ => exact Or.inl hid
      | created _ =>
        rcases Nat.lt_succ_iff_lt_or_eq.mp hid with hlt | rfl
        · exact Or.inl hlt
        · exact Or.inr ⟨rfl, by simp [tuplesOf]⟩

theorem epochs_of_frame {h : History} {a : Action} (he : Epochs h)
    (hcommit : commits h.engine a = none)
    (hcreated : (NvRec.step h.engine a).created = h.engine.created)
    (htuples : (NvRec.step h.engine a).tuplesOf = h.engine.tuplesOf) : Epochs (h.step a) :=
  epochs_of_none he hcommit hcreated.ge (fun id _ => congrFun htuples id) fun _ hid =>
    Or.inl (hcreated ▸ hid)

theorem sessionInv_step {h : History} (hs : SessionInv h) {a : Action} (hok : a.Ok)
    (hrestart : a ≠ .restart) : SessionInv (h.step a) := by
  have hinv := hs.calls.inv
  cases a with
  | restart => exact absurd rfl hrestart
  | call value =>
    refine ⟨followsCalls_step_of_none hs.calls hok rfl, ?_, ?_⟩
    · show (NvRec.step h.engine (.call value)).OneSession
      rw [NvRec.step]
      split
      · have hidle : ¬h.engine.Opening := by
          rintro ⟨v, hv⟩
          simp [hv, ClientPc.isIdle] at *
        exact oneSession_of_client hs.session hidle (not_opening_of_client rfl rfl)
          rfl rfl rfl (hs.session.indexed hidle)
      · exact hs.session
    · refine epochs_of_frame hs.epochs rfl ?_ ?_ <;> rw [NvRec.step] <;> split <;> rfl
  | tick t =>
    cases t with
    | client env =>
      have hmoved := clientStep_moved hinv.usable hok
      refine ⟨followsCalls_step hs.calls hok fun v hv hnew => ?_,
        oneSession_clientMoved hinv hs.session hmoved, epochs_clientStep hs.epochs hinv hs.session hok⟩
      -- only a transaction commits, so no pool is being opened
      refine hs.session.noNode ?_ hnew
      rintro ⟨w, hw⟩
      rw [commits, hw] at hv
      cases hv
    | flush i env =>
      have hframe := flushFrame hinv i hok
      exact ⟨followsCalls_step_of_none hs.calls hok rfl, oneSession_flushStep hinv hs.session i hok,
        epochs_of_frame hs.epochs rfl hframe.created hframe.tuplesOf⟩

theorem sessionInv_fresh : SessionInv History.fresh := by
  refine ⟨followsCalls_fresh, oneSession_fresh, fun id _ => ?_, fun e he => by cases he⟩
  show Lists _ _ (NVRecEngine.fresh.tuplesOf id)
  rw [tuplesOf, fresh_pools, tuples_empty]
  exact lists_empty

/-! ### Ordered and lossless -/

namespace NVRecEngine

/-- The tuples of the pool that flush thread `i` was given, head to tail. -/
def epoch (s : NVRecEngine) (i : Nat) : List Tuple := s.tuplesOf (s.flushes i).pool

/-- The tuples in the pool files that have been handed over and still exist. -/
def flushingTuples (s : NVRecEngine) : List Tuple :=
  (s.files.filter fun f => f.2 ∈ s.handedPools).flatMap fun f => s.tuplesOf f.2

/-- The tuples of the current pool; none while the next pool is being opened. -/
def currentTuples (s : NVRecEngine) : List Tuple :=
  if s.pool ∈ s.handedPools then [] else s.tuplesOf s.pool

def Unfinished (s : NVRecEngine) (i : Nat) : Prop :=
  i < s.launched ∧ (s.flushes i).pc.isFinished = false

end NVRecEngine

/-- What the asynchronous flushes promise in every state. -/
structure OrderedLossless (h : History) : Prop where
  oneFlush : ∀ i j, h.engine.Unfinished i → h.engine.Unfinished j → i = j
  twoFiles : h.engine.files.length ≤ 2
  ordered : ∃ n ≤ h.engine.launched, (∀ i < h.engine.launched, h.engine.Unfinished i ↔ n ≤ i) ∧
    ∃ written, h.engine.diskLog =
        tupleCode.writeAll ((List.range n).flatMap h.engine.epoch ++ written) ∧
      (n < h.engine.launched → written <+: h.engine.epoch n) ∧
      (n = h.engine.launched → written = [])
  epochs : ∀ i < h.engine.launched, ∀ k, about Tuple.key k (h.engine.epoch i) =
    (lastFor Tuple.key k (h.storedIn (h.engine.flushes i).pool)).toList
  unlinked : ∀ i < h.engine.launched, (∀ f ∈ h.engine.files, f.2 ≠ (h.engine.flushes i).pool) →
    tupleCode.writeAll (h.engine.epoch i) <:+: h.engine.diskLog
  reads : ∀ k, lastFor Tuple.key k
      (h.diskTuples ++ h.engine.flushingTuples ++ h.engine.currentTuples) =
    lastFor Tuple.key k h.tuples

namespace NVRecEngine

variable {s : NVRecEngine} {i : Nat}

theorem eq_singleton_of_nodup {α : Type} {l : List α} {x : α} (hnd : l.Nodup) (hx : x ∈ l)
    (hall : ∀ y ∈ l, y = x) : l = [x] :=
  List.perm_singleton.mp ((List.perm_ext_iff_of_nodup hnd (List.nodup_singleton x)).mpr fun y =>
    ⟨fun hy => List.mem_singleton.mpr (hall y hy), fun hy => List.mem_singleton.mp hy ▸ hx⟩)

theorem unfinished_of_handed (h : s.Inv) {f : Str × PoolId} (hf : f ∈ s.files)
    (hhanded : f.2 ∈ s.handedPools) :
    ∃ i, s.Unfinished i ∧ f = ((s.flushes i).poolPath, (s.flushes i).pool) := by
  obtain ⟨j, hj, hpool⟩ := mem_handedPools.mp hhanded
  cases hfin : (s.flushes j).pc.isFinished with
  | true => exact absurd hpool.symm ((h.ended j hj hfin).unlinked f hf)
  | false =>
    exact ⟨j, ⟨hj, hfin⟩, (h.ownership.file_of_pool (h.pending j hj hfin).file hf hpool).symm⟩

theorem handedFiles (h : s.Inv) (hi : s.Unfinished i) :
    (s.files.filter fun f => f.2 ∈ s.handedPools) =
      [((s.flushes i).poolPath, (s.flushes i).pool)] := by
  have hnd : s.files.Nodup := h.paths.of_map _
  refine eq_singleton_of_nodup (hnd.filter _) ?_ fun f hf => ?_
  · exact List.mem_filter.mpr ⟨(h.pending i hi.1 hi.2).file,
      decide_eq_true (flushes_mem_handedPools hi.1)⟩
  · obtain ⟨hf, hhanded⟩ := List.mem_filter.mp hf
    obtain ⟨j, hj, rfl⟩ := unfinished_of_handed h hf (of_decide_eq_true hhanded)
    have hlast := (h.pending i hi.1 hi.2).last
    have hlast' := (h.pending j hj.1 hj.2).last
    obtain rfl : j = i := by omega
    rfl

theorem handedFiles_of_finished (h : s.Inv) (hnone : ∀ i, ¬s.Unfinished i) :
    (s.files.filter fun f => f.2 ∈ s.handedPools) = [] := by
  rw [List.filter_eq_nil_iff]
  intro f hf hhanded
  obtain ⟨j, hj, -⟩ := unfinished_of_handed h hf (of_decide_eq_true hhanded)
  exact hnone j hj

theorem unfinished_cases (h : s.Inv) :
    (∃ i, s.Unfinished i ∧ i + 1 = s.launched) ∨ ∀ i, ¬s.Unfinished i := by
  by_cases hex : ∃ i, s.Unfinished i
  · obtain ⟨i, hi⟩ := hex
    exact Or.inl ⟨i, hi, (h.pending i hi.1 hi.2).last⟩
  · exact Or.inr fun i hi => hex ⟨i, hi⟩

theorem handed_eq_epochs : s.handed = (List.range s.launched).flatMap s.epoch := by
  rw [handed, handedPools, List.flatMap_map]
  rfl

/-- The disk log while thread `i` runs: the epochs before, and what it has
    written of its own. -/
theorem disk_of_unfinished (h : s.Inv) (hi : s.Unfinished i) :
    ∃ written, s.diskLog = tupleCode.writeAll ((List.range i).flatMap s.epoch ++ written) ∧
      written ++ s.remaining = s.epoch i := by
  have hlast := (h.pending i hi.1 hi.2).last
  obtain ⟨ds, hds, hleft⟩ := h.disk
  obtain ⟨written, hwritten⟩ := leftOf_suffix (h.lists (s.flushes i).pool) (s.flushes i).pc
  have hremaining := remaining_of_last hlast
  rw [handed_eq_epochs, ← hlast, List.range_succ, List.flatMap_append, List.flatMap_singleton] at hleft
  have hepoch : written ++ s.remaining = s.epoch i := by
    rw [hremaining]
    exact hwritten
  rw [← hepoch, ← List.append_assoc] at hleft
  exact ⟨written, by rw [hds, List.append_cancel_right hleft], hepoch⟩

theorem disk_of_finished (h : s.Inv) (hnone : ∀ i, ¬s.Unfinished i) :
    s.diskLog = tupleCode.writeAll s.handed ∧ s.remaining = [] := by
  have hremaining : s.remaining = [] := remaining_of_finished fun i hi => by
    by_contra hfin
    exact hnone i ⟨hi, by simpa using hfin⟩
  obtain ⟨ds, hds, hleft⟩ := h.disk
  rw [hremaining, List.append_nil] at hleft
  exact ⟨by rw [hds, hleft], hremaining⟩

theorem writeAll_epoch_infix {n : Nat} (hi : i < n) (ts : List Tuple) :
    tupleCode.writeAll (s.epoch i) <:+:
      tupleCode.writeAll ((List.range n).flatMap s.epoch ++ ts) := by
  obtain ⟨a, b, hab⟩ := List.append_of_mem (List.mem_range.mpr hi)
  refine ⟨tupleCode.writeAll (a.flatMap s.epoch),
    tupleCode.writeAll (b.flatMap s.epoch) ++ tupleCode.writeAll ts, ?_⟩
  rw [hab, List.flatMap_append, List.flatMap_cons]
  simp

theorem files_length_le (h : s.Inv) (hone : s.OneSession) : s.files.length ≤ 2 := by
  have hown : s.ownFiles.length ≤ 1 := by
    by_cases hopening : s.Opening
    · rw [(hone.handedOver hopening).1]
      exact Nat.zero_le _
    · rw [hone.own hopening]
      exact Nat.le_refl _
  have hhanded : (s.files.filter fun f => f.2 ∈ s.handedPools).length ≤ 1 := by
    rcases unfinished_cases h with ⟨i, hi, -⟩ | hnone
    · rw [handedFiles h hi]
      exact Nat.le_refl _
    · rw [handedFiles_of_finished h hnone]
      exact Nat.zero_le _
  have hsplit := List.length_eq_length_filter_add (l := s.files) fun f => f.2 ∈ s.handedPools
  have hnot : (s.files.filter fun f => !decide (f.2 ∈ s.handedPools)) = s.ownFiles := by
    rw [ownFiles]
    refine List.filter_congr fun f _ => ?_
    simp
  rw [hnot] at hsplit
  omega

theorem currentTuples_eq (h : s.Inv) (hone : s.OneSession) : s.currentTuples = s.unflushed := by
  rw [currentTuples]
  by_cases hopening : s.Opening
  · obtain ⟨hown, hhanded⟩ := hone.handedOver hopening
    rw [if_pos hhanded, unflushed, hown]
    rfl
  · rw [if_neg (h.current hopening).own, hone.unflushed hopening]

end NVRecEngine

theorem reads_of_sessionInv {h : History} (hs : SessionInv h) (k : UInt64) :
    lastFor Tuple.key k (h.diskTuples ++ h.engine.flushingTuples ++ h.engine.currentTuples) =
      lastFor Tuple.key k h.tuples := by
  have hinv := hs.calls.inv
  obtain ⟨st, hst, hfollows⟩ := hs.calls.follows
  have hview := hfollows.last k
  rw [InPlace.view, hst.durable, ← hst.live.lastFor k] at hview
  rw [lastFor_append, currentTuples_eq hinv hs.session, ← hview]
  congr 1
  rcases unfinished_cases hinv with ⟨i, hi, hlast⟩ | hnone
  · obtain ⟨written, hdisk, hepoch⟩ := disk_of_unfinished hinv hi
    have hflushing : h.engine.flushingTuples = h.engine.epoch i := by
      rw [flushingTuples, handedFiles hinv hi, List.flatMap_singleton]
      rfl
    have hhanded : h.engine.handed =
        (List.range i).flatMap h.engine.epoch ++ h.engine.epoch i := by
      rw [handed_eq_epochs, ← hlast, List.range_succ, List.flatMap_append, List.flatMap_singleton]
    rw [History.diskTuples, hdisk, FixedCode.readAll_writeAll, hflushing, hhanded, lastFor_append,
      lastFor_append, lastFor_append]
    -- what is written of the epoch is in the epoch
    cases hk : lastFor Tuple.key k (h.engine.epoch i) with
    | some t => rfl
    | none =>
      rw [← hepoch, lastFor_append, Option.or_eq_none_iff] at hk
      rw [hk.2, Option.none_or, Option.none_or]
  · obtain ⟨hdisk, -⟩ := disk_of_finished hinv hnone
    rw [History.diskTuples, hdisk, FixedCode.readAll_writeAll, flushingTuples,
      handedFiles_of_finished hinv hnone, List.flatMap_nil, List.append_nil]

theorem orderedLossless_of_sessionInv {h : History} (hs : SessionInv h) : OrderedLossless h := by
  have hinv := hs.calls.inv
  refine ⟨fun i j hi hj => ?_, files_length_le hinv hs.session, ?_, fun i hi k => ?_,
    fun i hi hgone => ?_, reads_of_sessionInv hs⟩
  · have hlast := (hinv.pending i hi.1 hi.2).last
    have hlast' := (hinv.pending j hj.1 hj.2).last
    omega
  · rcases unfinished_cases hinv with ⟨i, hi, hlast⟩ | hnone
    · obtain ⟨written, hdisk, hepoch⟩ := disk_of_unfinished hinv hi
      refine ⟨i, by omega, fun j hj => ⟨fun hun => ?_, fun hle => ?_⟩, written, hdisk,
        fun _ => ⟨_, hepoch⟩, fun heq => by omega⟩
      · have hlast' := (hinv.pending j hun.1 hun.2).last
        omega
      · obtain rfl : j = i := by omega
        exact hi
    · obtain ⟨hdisk, -⟩ := disk_of_finished hinv hnone
      refine ⟨h.engine.launched, Nat.le_refl _,
        fun j hj => ⟨fun hun => absurd hun (hnone j), fun hle => by omega⟩, [], ?_,
        fun hlt => absurd hlt (Nat.lt_irrefl _), fun _ => rfl⟩
      rw [List.append_nil, ← handed_eq_epochs]
      exact hdisk
  · exact hs.epochs.lists _ (hinv.handedKnown _ (flushes_mem_handedPools hi)) k
  · rcases unfinished_cases hinv with ⟨j, hj, hlast⟩ | hnone
    · obtain ⟨written, hdisk, -⟩ := disk_of_unfinished hinv hj
      have hne : i ≠ j := by
        rintro rfl
        exact hgone _ (hinv.pending i hj.1 hj.2).file rfl
      rw [hdisk]
      exact writeAll_epoch_infix (by omega) written
    · obtain ⟨hdisk, -⟩ := disk_of_finished hinv hnone
      rw [hdisk, handed_eq_epochs, ← List.append_nil (List.flatMap _ _)]
      exact writeAll_epoch_infix hi []

/-- **The asynchronous flush is ordered and lossless.**  For every sequence of
    calls, every interleaving of the client's steps with those of the flush
    threads, and every transaction that aborts, with working devices and no
    restart: in every state at most one flush is unfinished and at most two pool
    files exist; the disk log is the epochs of the finished flushes in order,
    then a prefix of the one being flushed; each epoch lists each of its keys
    once, with the last tuple stored for it there; a file is gone only when its
    epoch is on disk; and disk log, pool being flushed and current pool together
    end in the last tuple committed for each key. -/
theorem orderedLossless_of_noRestart (actions : List Action) (hok : ∀ a ∈ actions, a.Ok)
    (hrestart : ∀ a ∈ actions, a ≠ .restart) :
    Throughout History.step OrderedLossless History.fresh actions := by
  have hsteps : AllSteps History.step (fun _ a => a.Ok ∧ a ≠ .restart) History.fresh actions :=
    allSteps_const.mpr fun a ha => ⟨hok a ha, hrestart a ha⟩
  have hrun : Throughout History.step SessionInv History.fresh actions :=
    throughout_of_allSteps (fun h a hs hp => sessionInv_step hs hp.1 hp.2) sessionInv_fresh hsteps
  exact hrun.imp fun _ hs => orderedLossless_of_sessionInv hs

/-- Three calls on pools of one node.  The second starts a flush; the third finds
    it in the middle of its write and waits for it. -/
def overlapping : List Action :=
  soloCall { key := 1 } [{}] ++ soloCall { key := 2 } overflow ++
    List.replicate 2 (.tick (.flush 0 {})) ++ soloCall { key := 1, deleted := true } overflow ++
    List.replicate 5 (.tick (.flush 0 {})) ++ overflow.map fun env => .tick (.client env)

theorem orderedLossless_of_noRestart_overlapping :
    Throughout History.step OrderedLossless History.fresh overlapping :=
  orderedLossless_of_noRestart overlapping (by decide) (by simp [overlapping, soloCall, overflow])

end NvrecYcsb.NvRec
