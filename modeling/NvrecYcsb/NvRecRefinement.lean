/-
  NvrecYcsb/NvRecRefinement.lean
  ==============================
  **The engine with asynchronous flushes is an in-place store.**

  Durable is what has been handed to flush threads, written or not; live is what
  the other pool files hold.  A flush thread changes neither, a commit stores its
  tuple, and handing a pool over moves its tuples.  The one thing the code does
  not check is that a node added to the current pool is the only node of its key
  in these files (`Clear`).
-/
import NvrecYcsb.NvRecClient
import NvrecYcsb.KeyedLog

namespace NvrecYcsb.NvRec

open CppRuntime RecoveryDefs RecoveryInterface ListPool PersistentList KeyedLog NVRecEngine

namespace NVRecEngine

variable {s : NVRecEngine} {st : InPlace Tuple UInt64} {i : Nat}

/-- The engine as an in-place store. -/
structure Refines (s : NVRecEngine) (st : InPlace Tuple UInt64) : Prop where
  durable : st.durable = s.handed
  live : Lists Tuple.key st.live s.unflushed

theorem refines_of_eq {s' : NVRecEngine} (h : s.Refines st) (hhanded : s'.handed = s.handed)
    (hunflushed : s'.unflushed = s.unflushed) : s'.Refines st :=
  ⟨h.durable.trans hhanded.symm, hunflushed ▸ h.live⟩

/-! ### Flush steps -/

theorem ownFiles_unlinked (h : s.Inv) (hi : i < s.launched)
    (hpc : (s.flushes i).pc = .unlinking) : (s.unlinked i).ownFiles = s.ownFiles := by
  rw [ownFiles, unlinked_handedPools, ownFiles]
  show (s.files.filter _).filter _ = _
  rw [List.filter_filter]
  refine List.filter_congr fun f hf => ?_
  have hpend := (h.pending i hi (by rw [hpc]; rfl)).file
  by_cases hpath : f.1 = (s.flushes i).poolPath
  · have hsame := h.ownership.file_of_path hf hpend hpath
    have hhanded : f.2 ∈ s.handedPools := by
      rw [hsame]
      exact flushes_mem_handedPools hi
    simp [hhanded]
  · simp [hpath]

structure FlushFrame (s s' : NVRecEngine) : Prop where
  ownFiles : s'.ownFiles = s.ownFiles
  tuplesOf : s'.tuplesOf = s.tuplesOf
  handedPools : s'.handedPools = s.handedPools
  client : s'.client = s.client
  lookupTable : s'.lookupTable = s.lookupTable
  pool : s'.pool = s.pool
  poolCounter : s'.poolCounter = s.poolCounter
  created : s'.created = s.created
  launched : s'.launched = s.launched

theorem FlushFrame.refl (s : NVRecEngine) : FlushFrame s s :=
  ⟨rfl, rfl, rfl, rfl, rfl, rfl, rfl, rfl, rfl⟩

theorem FlushFrame.trans {a b c : NVRecEngine} (hab : FlushFrame a b) (hbc : FlushFrame b c) :
    FlushFrame a c where
  ownFiles := hbc.ownFiles.trans hab.ownFiles
  tuplesOf := hbc.tuplesOf.trans hab.tuplesOf
  handedPools := hbc.handedPools.trans hab.handedPools
  client := hbc.client.trans hab.client
  lookupTable := hbc.lookupTable.trans hab.lookupTable
  pool := hbc.pool.trans hab.pool
  poolCounter := hbc.poolCounter.trans hab.poolCounter
  created := hbc.created.trans hab.created
  launched := hbc.launched.trans hab.launched

theorem flushFrame (h : s.Inv) (i : Nat) {env : FlushEnv} (hok : (Tick.flush i env).Ok) :
    FlushFrame s (s.flushStep env i) := by
  have hmoved := flushStep_moved h i hok
  generalize s.flushStep env i = s' at hmoved ⊢
  cases hmoved with
  | stay => exact .refl s
  | move pc pools diskLog hi hunfinished hpools _ hpc hon hdisk =>
    refine ⟨?_, moveFlush_tuplesOf hpools, moveFlush_handedPools, rfl, rfl, rfl, rfl, rfl, rfl⟩
    rw [ownFiles, moveFlush_handedPools]
    rfl
  | unlink hi hpc =>
    exact ⟨ownFiles_unlinked h hi hpc, rfl, unlinked_handedPools, rfl, rfl, rfl, rfl, rfl, rfl⟩

theorem FlushFrame.handed {s' : NVRecEngine} (h : FlushFrame s s') : s'.handed = s.handed := by
  rw [NVRecEngine.handed, h.handedPools, h.tuplesOf, NVRecEngine.handed]

theorem FlushFrame.unflushed {s' : NVRecEngine} (h : FlushFrame s s') :
    s'.unflushed = s.unflushed := by
  rw [NVRecEngine.unflushed, h.ownFiles, h.tuplesOf, NVRecEngine.unflushed]

theorem refines_flushStep (h : s.Inv) (hst : s.Refines st) (i : Nat) {env : FlushEnv}
    (hok : (Tick.flush i env).Ok) : (s.flushStep env i).Refines st :=
  refines_of_eq hst (flushFrame h i hok).handed (flushFrame h i hok).unflushed

/-! ### Commits -/

theorem exists_ownFiles (h : s.Inv) (hopening : ¬s.Opening) :
    ∃ a b, s.ownFiles = a ++ (poolPath s.poolCounter, s.pool) :: b ∧
      ∀ f ∈ a ++ b, f.2 ≠ s.pool := by
  have hcur := h.current hopening
  have hmem : (poolPath s.poolCounter, s.pool) ∈ s.ownFiles :=
    List.mem_filter.mpr ⟨hcur.file, by simpa using hcur.own⟩
  obtain ⟨a, b, hab⟩ := List.append_of_mem hmem
  have hnd : (s.ownFiles.map Prod.snd).Nodup := h.ids.sublist (List.filter_sublist.map _)
  refine ⟨a, b, hab, fun f hf heq => ?_⟩
  rw [hab, List.map_append, List.map_cons] at hnd
  have hnotin := (List.nodup_middle.mp hnd)
  rw [← List.map_append, List.nodup_cons] at hnotin
  exact hnotin.1 (List.mem_map.mpr ⟨f, hf, heq⟩)

theorem unflushed_split {a b : List (Str × PoolId)}
    (hab : s.ownFiles = a ++ (poolPath s.poolCounter, s.pool) :: b) :
    s.unflushed = a.flatMap (fun f => s.tuplesOf f.2) ++
      (s.tuplesOf s.pool ++ b.flatMap fun f => s.tuplesOf f.2) := by
  rw [unflushed, hab, List.flatMap_append, List.flatMap_cons]

theorem unflushed_committed {list : PersistentList} {lookupTable : UInt64 → Option Ptr}
    {a b : List (Str × PoolId)}
    (hab : s.ownFiles = a ++ (poolPath s.poolCounter, s.pool) :: b)
    (hne : ∀ f ∈ a ++ b, f.2 ≠ s.pool) :
    (s.committed list lookupTable).unflushed = a.flatMap (fun f => s.tuplesOf f.2) ++
      (list.tuples ++ b.flatMap fun f => s.tuplesOf f.2) := by
  have hown : (s.committed list lookupTable).ownFiles = s.ownFiles := rfl
  have htuples : ∀ fs : List (Str × PoolId), (∀ f ∈ fs, f.2 ≠ s.pool) →
      fs.flatMap (fun f => (s.committed list lookupTable).tuplesOf f.2) =
        fs.flatMap fun f => s.tuplesOf f.2 := fun fs hfs =>
    List.flatMap_congr fun f hf => committed_tuplesOf_ne (hfs f hf)
  rw [unflushed, hown, hab, List.flatMap_append, List.flatMap_cons, committed_tuplesOf_pool,
    htuples a fun f hf => hne f (List.mem_append_left _ hf),
    htuples b fun f hf => hne f (List.mem_append_right _ hf)]

/-- No pool file that has not been handed over holds a node of `k`. -/
def NoNode (s : NVRecEngine) (k : UInt64) : Prop := ∀ t ∈ s.unflushed, t.key ≠ k

instance (s : NVRecEngine) (k : UInt64) : Decidable (s.NoNode k) := by
  unfold NoNode; infer_instance

theorem refines_inserted (h : s.Inv) (hst : s.Refines st) {value : Tuple}
    (hpc : s.client = .transacting value) (hclear : s.NoNode value.key) :
    (s.inserted value).Refines (st.store Tuple.key value) := by
  have hopening := not_opening_of_client hpc rfl
  obtain ⟨a, b, hab, hne⟩ := exists_ownFiles h hopening
  have hlive := hst.live
  have hnone : ∀ t ∈ s.unflushed, t.key ≠ value.key := hclear
  rw [unflushed_split hab] at hlive hnone
  refine ⟨hst.durable.trans (committed_handed (h.current hopening).own).symm, ?_⟩
  show Lists Tuple.key _ (s.committed _ _).unflushed
  rw [unflushed_committed hab hne, tuples_insert (h.lists s.pool)]
  exact hlive.insert hnone

theorem refines_updated (h : s.Inv) (hst : s.Refines st) {value : Tuple} {ptr : Ptr}
    (hpc : s.client = .transacting value) (hptr : s.lookupTable value.key = some ptr) :
    (s.updated ptr value).Refines (st.store Tuple.key value) := by
  have hopening := not_opening_of_client hpc rfl
  obtain ⟨a, b, hab, hne⟩ := exists_ownFiles h hopening
  obtain ⟨m, hm, hmkey⟩ := h.lookup _ _ hptr
  obtain ⟨c, d, htuples, hset⟩ := tuples_setObj (h.lists s.pool) hm hmkey
  have hlive := hst.live
  rw [unflushed_split hab, tuplesOf, htuples] at hlive
  refine ⟨hst.durable.trans (committed_handed (h.current hopening).own).symm, ?_⟩
  show Lists Tuple.key _ (s.committed _ _).unflushed
  rw [unflushed_committed hab hne, hset]
  have hassoc : ∀ (A B : List Tuple) (t : Tuple),
      A ++ (c ++ t :: d ++ B) = (A ++ c) ++ t :: (d ++ B) := by simp
  rw [hassoc] at hlive ⊢
  exact hlive.replace hmkey

/-! ### Handing over and making pools -/

theorem ownFiles_launchFlush {value : Tuple} {a b : List (Str × PoolId)}
    (hab : s.ownFiles = a ++ (poolPath s.poolCounter, s.pool) :: b)
    (hne : ∀ f ∈ a ++ b, f.2 ≠ s.pool) : (s.launchFlush value).ownFiles = a ++ b := by
  have hfilter : (s.launchFlush value).ownFiles = s.ownFiles.filter fun f => f.2 ≠ s.pool := by
    rw [ownFiles, launchFlush_handedPools, ownFiles, List.filter_filter]
    refine List.filter_congr fun f _ => ?_
    simp [and_comm]
  have hkeep : ∀ fs : List (Str × PoolId), (∀ f ∈ fs, f.2 ≠ s.pool) →
      fs.filter (fun f => f.2 ≠ s.pool) = fs := fun fs hfs =>
    List.filter_eq_self.mpr fun f hf => by simpa using hfs f hf
  rw [hfilter, hab, List.filter_append, List.filter_cons, if_neg (by simp),
    hkeep a fun f hf => hne f (List.mem_append_left _ hf),
    hkeep b fun f hf => hne f (List.mem_append_right _ hf)]

theorem refines_launchFlush (h : s.Inv) (hst : s.Refines st) {value : Tuple}
    (hpc : s.client = .launching value) :
    ∃ st', (s.launchFlush value).Refines st' ∧
      st'.durable = st.durable ++ s.tuplesOf s.pool ∧
      ∀ k, st'.persisted Tuple.key k = st.persisted Tuple.key k := by
  have hopening := not_opening_of_client hpc rfl
  obtain ⟨a, b, hab, hne⟩ := exists_ownFiles h hopening
  have hlive := hst.live
  rw [unflushed_split hab] at hlive
  obtain ⟨hrest, hparts⟩ := hlive.take
  have hunflushed : (s.launchFlush value).unflushed =
      a.flatMap (fun f => s.tuplesOf f.2) ++ b.flatMap fun f => s.tuplesOf f.2 := by
    rw [unflushed, ownFiles_launchFlush hab hne, List.flatMap_append]
    rfl
  rw [← hunflushed] at hrest hparts
  refine ⟨⟨st.durable ++ s.tuplesOf s.pool,
    fun k => lastFor Tuple.key k (s.launchFlush value).unflushed⟩, ⟨?_, hrest⟩, rfl, fun k => ?_⟩
  · rw [launchFlush_handed, hst.durable]
  · have hk := hrest k
    rw [InPlace.persisted, InPlace.persisted, about_append, List.append_assoc, ← hparts k, ← hk]

theorem ownFiles_poolMade {base s' : NVRecEngine} {path : Str} {c : ClientPc} (h : s.Inv)
    (hbase : s.SameWorld base) (hmade : base.PoolMade path s') :
    ((s'.started c).ownFiles = s.ownFiles ∧ (path, s'.pool) ∈ s.files) ∨
    ((s'.started c).ownFiles = s.ownFiles ++ [(path, s'.pool)] ∧ s'.tuplesOf s'.pool = [] ∧
      s'.pool = s.created) := by
  rw [ownFiles, poolMade_handedPools hbase hmade, ownFiles, ← hbase.files]
  cases hmade with
  | opened id hfile => exact Or.inl ⟨rfl, hfile⟩
  | created hnone =>
    have hnew : base.created ∉ s.handedPools := fun hid => by
      have hlt := h.handedKnown _ hid
      rw [hbase.created] at hlt
      exact Nat.lt_irrefl _ hlt
    refine Or.inr ⟨?_, by simp [tuplesOf], hbase.created⟩
    show List.filter _ (base.files ++ [(path, base.created)]) = _
    rw [List.filter_append, List.filter_cons_of_pos (by simpa using hnew), List.filter_nil]

theorem unflushed_poolMade {base s' : NVRecEngine} {path : Str} {c : ClientPc} (h : s.Inv)
    (hbase : s.SameWorld base) (hmade : base.PoolMade path s') :
    (s'.started c).unflushed = s.unflushed := by
  have htuples : s.ownFiles.flatMap (fun f => (s'.started c).tuplesOf f.2) = s.unflushed :=
    List.flatMap_congr fun f hf => by
      show (s'.pools f.2).list.tuples = _
      rw [poolMade_list hbase hmade (h.known f (List.mem_filter.mp hf).1), tuplesOf]
  rw [unflushed]
  rcases ownFiles_poolMade (c := c) h hbase hmade with ⟨hown, -⟩ | ⟨hown, hempty, -⟩
  · rw [hown, htuples]
  · rw [hown, List.flatMap_append, htuples, List.flatMap_singleton]
    show s.unflushed ++ s'.tuplesOf s'.pool = s.unflushed
    rw [hempty, List.append_nil]

theorem refines_poolMade {base s' : NVRecEngine} {path : Str} {c : ClientPc} (h : s.Inv)
    (hst : s.Refines st) (hbase : s.SameWorld base) (hmade : base.PoolMade path s') :
    (s'.started c).Refines st :=
  refines_of_eq hst (poolMade_handed h hbase hmade) (unflushed_poolMade h hbase hmade)

end NVRecEngine

end NvrecYcsb.NvRec
