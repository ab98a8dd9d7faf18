/-
  NvrecYcsb/NvRecRestart.lean
  ===========================
  **Restarts and the order of the disk log.**

  A clean restart forgets the lookup table and the pool counter and keeps the
  pool files.  So a pool left behind comes back as the current one, at once or
  when the counter reaches its number, and nothing stops a second node of a key
  that already has one in such a file.  As long as that does not happen, the
  disk log holds the tuples of each key in the order of the calls and ends in
  the last one (`newest_of_clear`); `stale_reopenedPool` is the run that breaks
  it.
-/
import NvrecYcsb.NvRecRefinement

namespace NvrecYcsb.NvRec

open CppRuntime RecoveryDefs RecoveryInterface ListPool PersistentList KeyedLog NVRecEngine Runs
  Framing

/-! ### Histories -/

/-- An engine and the tuples committed so far, each with the pool it went to. -/
structure History where
  engine : NVRecEngine
  stored : List (PoolId × Tuple)

namespace History

def fresh : History := ⟨NVRecEngine.fresh, []⟩

def step (h : History) (a : Action) : History :=
  ⟨NvRec.step h.engine a,
    h.stored ++ (commits h.engine a).toList.map fun value => (h.engine.pool, value)⟩

def tuples (h : History) : List Tuple := h.stored.map Prod.snd

/-- The tuples in the disk log, in file order. -/
def diskTuples (h : History) : List Tuple := tupleCode.readAll h.engine.diskLog

theorem tuples_step (h : History) (a : Action) :
    (h.step a).tuples = h.tuples ++ (commits h.engine a).toList := by
  simp [tuples, step, Function.comp_def]

end History

/-! ### What a step does to the abstract store -/

namespace NVRecEngine

variable {s : NVRecEngine} {st : InPlace Tuple UInt64}

/-- The effect of a step on the abstract store: records may move, or the
    committed tuple is put. -/
def Effect (commit : Option Tuple) (st st' : InPlace Tuple UInt64) : Prop :=
  match commit with
  | none => ∀ k, st'.persisted Tuple.key k = st.persisted Tuple.key k
  | some value => InPlace.Put Tuple.key value st st'

/-- A step that adds a node adds the only node of its key. -/
def Clear (s : NVRecEngine) (a : Action) : Prop :=
  ∀ value ∈ commits s a, s.lookupTable value.key = none → s.NoNode value.key

instance (s : NVRecEngine) (a : Action) : Decidable (Clear s a) := by
  unfold Clear; infer_instance

theorem refines_clientMoved (h : s.Inv) (hst : s.Refines st) {commit : Option Tuple}
    {s' : NVRecEngine} (hmoved : ClientMoved s commit s')
    (hclear : ∀ value ∈ commit, s.lookupTable value.key = none → s.NoNode value.key) :
    ∃ st', s'.Refines st' ∧ Effect commit st st' := by
  cases hmoved with
  | stay => exact ⟨st, hst, fun _ => rfl⟩
  | insert value hpc hnew =>
    exact ⟨_, refines_inserted h hst hpc (hclear value rfl hnew), InPlace.put_store st value⟩
  | update value ptr hpc hptr =>
    exact ⟨_, refines_updated h hst hpc hptr, InPlace.put_store st value⟩
  | abort value hpc => exact ⟨st, refines_of_eq hst rfl rfl, fun _ => rfl⟩
  | join value hpc hfinished => exact ⟨st, refines_of_eq hst rfl rfl, fun _ => rfl⟩
  | launch value hpc =>
    obtain ⟨st', hst', -, hpersisted⟩ := refines_launchFlush h hst hpc
    exact ⟨st', hst', hpersisted⟩
  | next value hpc s' hmade =>
    have hbase := SameWorld.counted s
    exact ⟨st, refines_poolMade h hst hbase hmade, fun _ => rfl⟩

theorem refines_restart (h : s.Inv) (hst : s.Refines st) :
    s.closePool.construct.Refines st := by
  obtain ⟨s', hs', hmade⟩ := restart_made s
  rw [hs']
  exact refines_poolMade h hst (sameWorld_rebooted s) hmade

/-- **The effect of an action**, with working devices. -/
theorem refines_step (h : s.Inv) (hst : s.Refines st) {a : Action} (hok : a.Ok)
    (hclear : Clear s a) : ∃ st', (step s a).Refines st' ∧ Effect (commits s a) st st' := by
  cases a with
  | call value =>
    refine ⟨st, ?_, fun _ => rfl⟩
    rw [step]
    split
    · exact refines_of_eq hst rfl rfl
    · exact hst
  | tick t =>
    cases t with
    | client env => exact refines_clientMoved h hst (clientStep_moved h.usable hok) hclear
    | flush i env => exact ⟨st, refines_flushStep h hst i hok, fun _ => rfl⟩
  | restart =>
    refine ⟨st, ?_, fun _ => rfl⟩
    rw [step_restart h.ownership]
    split
    · exact refines_restart h hst
    · exact hst

theorem refines_fresh : fresh.Refines ⟨[], fun _ => none⟩ := by
  have hunflushed : fresh.unflushed = [] := by
    rw [unflushed, List.flatMap_eq_nil_iff]
    intro f _
    rw [tuplesOf, fresh_pools, tuples_empty]
  refine ⟨rfl, ?_⟩
  rw [hunflushed]
  exact lists_empty

end NVRecEngine

/-! ### The newest tuple -/

/-- The engine follows its history: for each key, what the disk log, the threads
    and the pool files hold is in the order of the calls and ends in the last. -/
structure FollowsCalls (h : History) : Prop where
  inv : h.engine.Inv
  follows : ∃ st, h.engine.Refines st ∧ InPlace.Follows Tuple.key st h.tuples

theorem followsCalls_fresh : FollowsCalls History.fresh :=
  ⟨inv_fresh, _, refines_fresh, InPlace.follows_nil⟩

theorem followsCalls_step {h : History} (hf : FollowsCalls h) {a : Action} (hok : a.Ok)
    (hclear : Clear h.engine a) : FollowsCalls (h.step a) := by
  obtain ⟨st, hst, hfollows⟩ := hf.follows
  obtain ⟨st', hst', heffect⟩ := refines_step hf.inv hst hok hclear
  refine ⟨inv_step hf.inv hok, st', hst', ?_⟩
  rw [History.tuples_step]
  cases hcommit : commits h.engine a with
  | none =>
    rw [hcommit] at heffect
    rw [Option.toList_none, List.append_nil]
    exact hfollows.of_persisted heffect
  | some value =>
    rw [hcommit] at heffect
    exact hfollows.put heffect

theorem followsCalls_step_of_none {h : History} (hf : FollowsCalls h) {a : Action} (hok : a.Ok)
    (hcommit : commits h.engine a = none) : FollowsCalls (h.step a) :=
  followsCalls_step hf hok fun value hvalue => by
    rw [hcommit] at hvalue
    cases hvalue

/-- No pool file holds a tuple of `k`. -/
def LeftPools (s : NVRecEngine) (k : UInt64) : Prop :=
  ∀ f ∈ s.files, ∀ t ∈ s.tuplesOf f.2, t.key ≠ k

/-- The newest value is the newest on disk: the disk log holds the tuples of each
    key in the order of the calls, and for a key that is in no pool file its last
    tuple is that of the last call. -/
structure Newest (h : History) : Prop where
  ordered : ∀ k, (about Tuple.key k h.diskTuples).Sublist (about Tuple.key k h.tuples)
  last : ∀ k, LeftPools h.engine k →
    lastFor Tuple.key k h.diskTuples = lastFor Tuple.key k h.tuples

namespace NVRecEngine

variable {s : NVRecEngine}

theorem leftOf_suffix {list : PersistentList} (hlist : list.WellFormed) (pc : FlushPc) :
    leftOf list pc <:+ list.tuples := by
  have hfrom : ∀ p : Ptr, list.tuplesFrom (some p) <:+ list.tuples := by
    intro p
    rw [tuples_eq hlist, tuplesFrom, List.map_take]
    exact List.reverse_suffix.mpr (List.take_prefix _ _)
  cases pc with
  | starting => exact List.suffix_rfl
  | reading current =>
    cases current with
    | none => exact List.nil_suffix
    | some p => exact hfrom p
  | writing p u => exact hfrom p
  | syncing => exact List.nil_suffix
  | closing => exact List.nil_suffix
  | unlinking => exact List.nil_suffix
  | finished r => exact List.nil_suffix

theorem remaining_mem_file (h : s.Inv) {t : Tuple} (ht : t ∈ s.remaining) :
    ∃ f ∈ s.files, t ∈ s.tuplesOf f.2 := by
  rw [remaining] at ht
  cases hlaunched : s.launched with
  | zero => rw [hlaunched] at ht; cases ht
  | succ i =>
    rw [hlaunched] at ht
    have hi : i < s.launched := by omega
    cases hfin : (s.flushes i).pc.isFinished with
    | true =>
      have hnil := leftOf_of_finished (s.flushList i) hfin
      change t ∈ leftOf (s.flushList i) (s.flushes i).pc at ht
      rw [hnil] at ht
      cases ht
    | false =>
      exact ⟨_, (h.pending i hi hfin).file,
        (leftOf_suffix (h.lists _) _).subset ht⟩

theorem unflushed_mem_file {t : Tuple} (ht : t ∈ s.unflushed) :
    ∃ f ∈ s.files, t ∈ s.tuplesOf f.2 := by
  obtain ⟨f, hf, ht⟩ := List.mem_flatMap.mp ht
  exact ⟨f, (List.mem_filter.mp hf).1, ht⟩

end NVRecEngine

theorem newest_of_followsCalls {h : History} (hf : FollowsCalls h) : Newest h := by
  obtain ⟨ds, hds, hleft⟩ := hf.inv.disk
  obtain ⟨st, hst, hfollows⟩ := hf.follows
  have hdisk : h.diskTuples = ds := by rw [History.diskTuples, hds, FixedCode.readAll_writeAll]
  have hdurable : st.durable = ds ++ h.engine.remaining := hst.durable.trans hleft.symm
  refine ⟨fun k => ?_, fun k hk => ?_⟩
  · have hpart : (about Tuple.key k ds).Sublist (st.persisted Tuple.key k) := by
      rw [InPlace.persisted, hdurable, about_append, List.append_assoc]
      exact List.sublist_append_left _ _
    rw [hdisk]
    exact hpart.trans (hfollows.ordered k)
  · have hremaining : about Tuple.key k h.engine.remaining = [] := by
      rw [about_eq_nil_iff]
      intro t ht
      obtain ⟨f, hfile, htf⟩ := remaining_mem_file hf.inv ht
      exact hk f hfile t htf
    have hlive : st.live k = none := by
      have hnone : about Tuple.key k h.engine.unflushed = [] := by
        rw [about_eq_nil_iff]
        intro t ht
        obtain ⟨f, hfile, htf⟩ := unflushed_mem_file ht
        exact hk f hfile t htf
      have hlists := hst.live k
      rw [hnone] at hlists
      cases hm : st.live k with
      | none => rfl
      | some v => rw [hm] at hlists; cases hlists
    have hview := hfollows.last k
    rw [InPlace.view, hlive, Option.none_or, hdurable] at hview
    rw [hdisk, ← hview]
    refine lastFor_congr ?_
    rw [about_append, hremaining, List.append_nil]

/-- **The newest value stays newest across restarts, while each key has one
    node.**  For every history of calls, client and flush steps in any order,
    transactions that abort anywhere, and clean restarts, all devices working:
    if every step that adds a node finds no node of its key in the pool files
    not handed to a flush, then in every state the disk log is in the order of
    the calls, and for each key in no pool file it ends in the last call. -/
theorem newest_of_clear (actions : List Action) (hok : ∀ a ∈ actions, a.Ok)
    (hclear : AllSteps History.step (fun h a => Clear h.engine a) History.fresh actions) :
    Throughout History.step Newest History.fresh actions := by
  have hsteps : AllSteps History.step (fun h a => a.Ok ∧ Clear h.engine a) History.fresh actions :=
    allSteps_and.mpr ⟨allSteps_const.mpr hok, hclear⟩
  have hrun : Throughout History.step FollowsCalls History.fresh actions :=
    throughout_of_allSteps (fun h a hf hp => followsCalls_step hf hp.1 hp.2)
      followsCalls_fresh hsteps
  exact hrun.imp fun _ hf => newest_of_followsCalls hf

/-- One call, all of its steps taken by the client alone. -/
def soloCall (value : Tuple) (steps : List ClientEnv) : List Action :=
  .call value :: steps.map fun env => .tick (.client env)

/-- The transaction aborts, the flush before is joined, the new one launched, the
    next pool made, and the tuple stored there. -/
def overflow : List ClientEnv := [{ commits := false }, {}, {}, {}, {}]

/-- A pool reopened by a restart is handed over and flushed while its key is deleted
    in the next pool, and then that pool is handed over and flushed. -/
def flushedAfterRestart : List Action :=
  soloCall { key := 1 } [{}] ++ .restart :: soloCall { key := 2 } overflow ++
    List.replicate 2 (.tick (.flush 0 {})) ++ soloCall { key := 1, deleted := true } [{}] ++
    List.replicate 5 (.tick (.flush 0 {})) ++ soloCall { key := 3 } overflow ++
    List.replicate 9 (.tick (.flush 1 {}))

theorem newest_of_clear_flushedAfterRestart :
    LeftPools (run History.step History.fresh flushedAfterRestart).engine 1 ∧
      Throughout History.step Newest History.fresh flushedAfterRestart :=
  ⟨by unfold LeftPools; decide +kernel,
    newest_of_clear flushedAfterRestart (by decide) (by decide +kernel)⟩

/-- A pool of two nodes is reopened by a restart, its key stored again, and the
    pool handed over and flushed. -/
def reopenedPool : List Action :=
  soloCall { key := 1 } [{}] ++ .restart :: soloCall { key := 1, deleted := true } [{}] ++
    soloCall { key := 2 } overflow ++ List.replicate 9 (.tick (.flush 0 {}))

/-- **A stale tuple after a newer one.**  Key 1 is updated, the engine restarted,
    key 1 deleted, and a call for key 2 finds the pool full.  The flush writes the
    pool newest first: the disk log ends with the update although the delete was
    the last call, and no pool file holds a tuple of key 1. -/
theorem stale_reopenedPool :
    (∀ a ∈ reopenedPool, a.Ok) ∧
      LeftPools (run History.step History.fresh reopenedPool).engine 1 ∧
      lastFor Tuple.key 1 (run History.step History.fresh reopenedPool).tuples =
        some { key := 1, deleted := true } ∧
      lastFor Tuple.key 1 (run History.step History.fresh reopenedPool).diskTuples =
        some { key := 1 } ∧
      ¬Newest (run History.step History.fresh reopenedPool) := by
  have hok : ∀ a ∈ reopenedPool, a.Ok := by decide
  have hleft : LeftPools (run History.step History.fresh reopenedPool).engine 1 := by
    unfold LeftPools
    decide +kernel
  have hlast : lastFor Tuple.key 1 (run History.step History.fresh reopenedPool).tuples =
      some { key := 1, deleted := true } := by decide +kernel
  have hbytes : (run History.step History.fresh reopenedPool).engine.diskLog =
      tupleCode.writeAll [{ key := 1, deleted := true }, { key := 1 }] := by decide +kernel
  have hdisk : lastFor Tuple.key 1 (run History.step History.fresh reopenedPool).diskTuples =
      some { key := 1 } := by
    rw [History.diskTuples, hbytes, FixedCode.readAll_writeAll]
    decide
  refine ⟨hok, hleft, hlast, hdisk, fun hnewest => ?_⟩
  have heq := hnewest.last 1 hleft
  rw [hlast, hdisk] at heq
  exact absurd heq (by decide)

end NvrecYcsb.NvRec
