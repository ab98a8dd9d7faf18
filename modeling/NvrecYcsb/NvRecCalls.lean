/-
  NvrecYcsb/NvRecCalls.lean
  =========================
  **Whole calls of the asynchronous engine.**

  A call of `PersistRaw` is a run of the machine under a schedule: the ticks of
  the client and of the flush threads until the client is idle again, and any
  flush ticks after that.  The pools admit a given number of nodes, and a
  transaction aborts exactly when it adds a node to a full pool (`Admits`).

  * `persistRaw_put`: whatever the schedule, a call that ends is one put of its
    tuple, as for the other engines;
  * `persistRaw_returns`: with room for one node in a pool, there is a schedule
    under which the call ends and no flush is left running.
-/
import NvrecYcsb.NvRecFlushOrder

namespace NvrecYcsb.NvRec

open CppRuntime RecoveryDefs RecoveryInterface ListPool PersistentList KeyedLog NVRecEngine Runs
  Framing

/-- `PersistRaw` under a schedule; `running` when the schedule ends too early. -/
def persistRaw (schedule : List Tick) (s : NVRecEngine) (value : Tuple) :
    Outcome RecoveryStatus × NVRecEngine :=
  if s.client.isIdle then
    let s := run tick (step s (.call value)) schedule
    match s.client with
    | .idle result => (result, s)
    | _ => (.running, s)
  else (.running, s)

/-- `NVRecEngine` as a recovery engine: `PersistUpdate` and `PersistDelete`. -/
def engine : RecoveryEngine (List Tick) NVRecEngine := RecoveryEngine.ofStore persistRaw

/-- With room for `capacity` nodes in a pool, a transaction aborts exactly when
    it would add a node beyond them. -/
def Admits (capacity : Nat) (s : NVRecEngine) : Tick → Prop
  | .client env => ∀ value, s.client = .transacting value →
      (env.commits = true ↔
        s.lookupTable value.key ≠ none ∨ (s.pools s.pool).list.heap.length < capacity)
  | .flush _ _ => True

instance (capacity : Nat) (s : NVRecEngine) : DecidablePred (Admits capacity s)
  | .flush _ _ => isTrue trivial
  | .client env =>
    match hpc : s.client with
    | .transacting value =>
      decidable_of_iff (env.commits = true ↔
          s.lookupTable value.key ≠ none ∨ (s.pools s.pool).list.heap.length < capacity)
        (by simp [Admits, hpc])
    | .idle _ => isTrue fun v hv => by rw [hpc] at hv; cases hv
    | .waiting _ => isTrue fun v hv => by rw [hpc] at hv; cases hv
    | .launching _ => isTrue fun v hv => by rw [hpc] at hv; cases hv
    | .opening _ => isTrue fun v hv => by rw [hpc] at hv; cases hv

def Works (capacity : Nat) (s : NVRecEngine) (t : Tick) : Prop :=
  (Action.tick t).Ok ∧ Admits capacity s t

instance (capacity : Nat) (s : NVRecEngine) (t : Tick) : Decidable (Works capacity s t) :=
  inferInstanceAs (Decidable (_ ∧ _))

namespace NVRecEngine

variable {s : NVRecEngine} {st₀ : InPlace Tuple UInt64} {value : Tuple} {capacity : Nat}

/-! ### A call is a put -/

/-- The client is inside the call that stores `value`.  Outside the transaction
    and the opening of a pool, the table does not name its key. -/
inductive InCall (s : NVRecEngine) (value : Tuple) : Prop
  | transacting (hpc : s.client = .transacting value)
  | waiting (hpc : s.client = .waiting value) (hnew : s.lookupTable value.key = none)
  | launching (hpc : s.client = .launching value) (hnew : s.lookupTable value.key = none)
  | opening (hpc : s.client = .opening value)

/-- During the call records of other keys may have moved; at its end the tuple
    has been put. -/
structure Calling (st₀ : InPlace Tuple UInt64) (value : Tuple) (s : NVRecEngine) : Prop where
  inv : s.Inv
  session : s.OneSession
  store : ∃ st, s.Refines st ∧
    ((s.InCall value ∧ InPlace.Settled Tuple.key value.key st₀ st) ∨
      (s.client = .idle (.returned .kSuccess) ∧ InPlace.Put Tuple.key value st₀ st))

theorem inCall_flush {s' : NVRecEngine} (hframe : FlushFrame s s') (h : s.InCall value) :
    s'.InCall value := by
  cases h with
  | transacting hpc => exact .transacting (hframe.client.trans hpc)
  | waiting hpc hnew => exact .waiting (hframe.client.trans hpc) (hframe.lookupTable ▸ hnew)
  | launching hpc hnew => exact .launching (hframe.client.trans hpc) (hframe.lookupTable ▸ hnew)
  | opening hpc => exact .opening (hframe.client.trans hpc)

theorem about_pool_of_lookup (hone : s.OneSession) (hopening : ¬s.Opening) {k : UInt64}
    (hnew : s.lookupTable k = none) : about Tuple.key k (s.tuplesOf s.pool) = [] := by
  rw [about_eq_nil_iff]
  rintro t ht rfl
  exact hone.indexed hopening t ht hnew

theorem value_of_inCall (h : s.InCall value) :
    (∀ v, s.client = .transacting v → v = value) ∧ (∀ v, s.client = .waiting v → v = value) ∧
    (∀ v, s.client = .launching v → v = value) ∧ (∀ v, s.client = .opening v → v = value) ∧
    ∀ r, s.client ≠ .idle r := by
  cases h with
  | transacting hpc => rw [hpc]; simp [eq_comm]
  | waiting hpc _ => rw [hpc]; simp [eq_comm]
  | launching hpc _ => rw [hpc]; simp [eq_comm]
  | opening hpc => rw [hpc]; simp [eq_comm]

theorem lookup_of_inCall (h : s.InCall value) (htransacting : ∀ v, s.client ≠ .transacting v)
    (hopening : ∀ v, s.client ≠ .opening v) : s.lookupTable value.key = none := by
  cases h with
  | transacting hpc => exact absurd hpc (htransacting value)
  | waiting _ hnew => exact hnew
  | launching _ hnew => exact hnew
  | opening hpc => exact absurd hpc (hopening value)

theorem calling_clientStep (hinv : s.Inv) (hone : s.OneSession) {st : InPlace Tuple UInt64}
    (hst : s.Refines st) (hcall : s.InCall value)
    (hsettled : InPlace.Settled Tuple.key value.key st₀ st) {env : ClientEnv}
    (hworks : Works capacity s (.client env)) : Calling st₀ value (s.clientStep env) := by
  have hmoved := clientStep_moved hinv.usable hworks.1
  have hinv' := inv_clientMoved hinv hmoved
  have hone' := oneSession_clientMoved hinv hone hmoved
  obtain ⟨htransacting, hwaiting, hlaunching, hopening, -⟩ := value_of_inCall hcall
  have hadmits := hworks.2
  have hcommit : ∀ v, s.client = .transacting v →
      commits s (.tick (.client env)) = if env.commits = true then some v else none := by
    intro v hpc
    have hopen := (hinv.current (not_opening_of_client hpc rfl)).isOpen
    simp [commits, hpc, hopen]
  refine ⟨hinv', hone', ?_⟩
  generalize hc : commits s (.tick (.client env)) = commit at hmoved
  generalize s.clientStep env = s' at hmoved hinv' hone' ⊢
  cases hmoved with
  | stay => exact ⟨st, hst, Or.inl ⟨hcall, hsettled⟩⟩
  | insert v hpc hnew =>
    obtain rfl := htransacting v hpc
    have hclear := hone.noNode (not_opening_of_client hpc rfl) hnew
    exact ⟨_, refines_inserted hinv hst hpc hclear, Or.inr ⟨rfl, st, hsettled, rfl⟩⟩
  | update v ptr hpc hptr =>
    obtain rfl := htransacting v hpc
    exact ⟨_, refines_updated hinv hst hpc hptr, Or.inr ⟨rfl, st, hsettled, rfl⟩⟩
  | abort v hpc =>
    obtain rfl := htransacting v hpc
    rw [hcommit v hpc] at hc
    have hnew : s.lookupTable v.key = none := by
      by_contra hne
      rw [if_pos ((hadmits v hpc).mpr (Or.inl hne))] at hc
      cases hc
    exact ⟨st, refines_of_eq hst rfl rfl, Or.inl ⟨.waiting rfl hnew, hsettled⟩⟩
  | join v hpc _ =>
    obtain rfl := hwaiting v hpc
    have hnew := lookup_of_inCall hcall (by simp [hpc]) (by simp [hpc])
    exact ⟨st, refines_of_eq hst rfl rfl, Or.inl ⟨.launching rfl hnew, hsettled⟩⟩
  | launch v hpc =>
    obtain rfl := hlaunching v hpc
    have hnew := lookup_of_inCall hcall (by simp [hpc]) (by simp [hpc])
    have hnone := about_pool_of_lookup hone (not_opening_of_client hpc rfl) hnew
    obtain ⟨st', hst', hdurable, hpersisted⟩ := refines_launchFlush hinv hst hpc
    refine ⟨st', hst', Or.inl ⟨.opening rfl, hsettled.trans ⟨hpersisted, ?_⟩⟩⟩
    rw [hdurable, about_append, hnone, List.append_nil]
  | next v hpc s'' hmade =>
    obtain rfl := hopening v hpc
    have hbase := SameWorld.counted s
    exact ⟨st, refines_poolMade hinv hst hbase hmade, Or.inl ⟨.transacting rfl, hsettled⟩⟩

theorem calling_tick (h : Calling st₀ value s) {t : Tick} (hworks : Works capacity s t) :
    Calling st₀ value (tick s t) := by
  obtain ⟨st, hst, hcase⟩ := h.store
  cases t with
  | client env =>
    rcases hcase with ⟨hcall, hsettled⟩ | ⟨hidle, hput⟩
    · exact calling_clientStep h.inv h.session hst hcall hsettled hworks
    · have hstay : s.clientStep env = s := by rw [clientStep, hidle]
      show Calling st₀ value (s.clientStep env)
      rw [hstay]
      exact h
  | flush i env =>
    have hframe := flushFrame h.inv i hworks.1
    refine ⟨inv_flushStep h.inv i hworks.1, oneSession_flushStep h.inv h.session i hworks.1, st,
      refines_flushStep h.inv hst i hworks.1, ?_⟩
    rcases hcase with ⟨hcall, hsettled⟩ | ⟨hidle, hput⟩
    · exact Or.inl ⟨inCall_flush hframe hcall, hsettled⟩
    · exact Or.inr ⟨hframe.client.trans hidle, hput⟩

/-- The engine between two calls of one session. -/
structure Idle (s : NVRecEngine) (st : InPlace Tuple UInt64) : Prop where
  inv : s.Inv
  session : s.OneSession
  idle : s.client.isIdle = true
  store : s.Refines st

theorem idle_fresh : fresh.Idle ⟨[], fun _ => none⟩ :=
  ⟨inv_fresh, oneSession_fresh, rfl, refines_fresh⟩

theorem not_opening_of_idle {st : InPlace Tuple UInt64} (h : s.Idle st) : ¬s.Opening :=
  not_opening_of_isIdle h.idle

theorem calling_call {st : InPlace Tuple UInt64} (h : s.Idle st) (value : Tuple) :
    Calling st value (step s (.call value)) := by
  have hopening := not_opening_of_idle h
  rw [step, if_pos h.idle]
  exact ⟨inv_call h.inv h.idle value,
    oneSession_of_client h.session hopening (not_opening_of_client rfl rfl) rfl rfl rfl
      (h.session.indexed hopening),
    st, refines_of_eq h.store rfl rfl, Or.inl ⟨.transacting rfl, .refl _ st⟩⟩

theorem calling_run {st : InPlace Tuple UInt64} (h : s.Idle st) (value : Tuple)
    {schedule : List Tick}
    (hworks : AllSteps tick (Works capacity) (step s (.call value)) schedule) :
    Calling st value (run tick (step s (.call value)) schedule) :=
  (throughout_of_allSteps (J := Calling st value) (fun _ _ hcalling => calling_tick hcalling)
    (calling_call h value) hworks).last

/-- **A call is a put.**  On pools of any capacity and under any schedule, a call
    whose schedule is long enough returns `kSuccess`, and its tuple has been put. -/
theorem persistRaw_put {st : InPlace Tuple UInt64} (h : s.Idle st) (value : Tuple)
    {schedule : List Tick}
    (hworks : AllSteps tick (Works capacity) (step s (.call value)) schedule)
    (hended : (persistRaw schedule s value).1 ≠ .running) :
    ∃ s' st', persistRaw schedule s value = (.returned .kSuccess, s') ∧ s'.Idle st' ∧
      InPlace.Put Tuple.key value st st' := by
  have hcalling := calling_run h value hworks
  rw [persistRaw, if_pos h.idle] at hended ⊢
  generalize run tick (step s (.call value)) schedule = s' at hcalling hended ⊢
  obtain ⟨st', hst', hcase⟩ := hcalling.store
  rcases hcase with ⟨hcall, -⟩ | ⟨hidle, hput⟩
  · exfalso
    cases hcall with
    | transacting hpc => simp [hpc] at hended
    | waiting hpc _ => simp [hpc] at hended
    | launching hpc _ => simp [hpc] at hended
    | opening hpc => simp [hpc] at hended
  · refine ⟨s', st', by simp only [hidle], ⟨hcalling.inv, hcalling.session, ?_, hst'⟩, hput⟩
    rw [hidle]
    rfl

/-! ### Calls end -/

/-- A working schedule leads from one state to the other. -/
def Reaches (capacity : Nat) (s s' : NVRecEngine) : Prop :=
  ∃ schedule, AllSteps tick (Works capacity) s schedule ∧ run tick s schedule = s'

theorem Reaches.refl (s : NVRecEngine) : Reaches capacity s s := ⟨[], trivial, rfl⟩

theorem Reaches.trans {a b c : NVRecEngine} (hab : Reaches capacity a b)
    (hbc : Reaches capacity b c) : Reaches capacity a c := by
  obtain ⟨ts, hts, rfl⟩ := hab
  obtain ⟨us, hus, rfl⟩ := hbc
  exact ⟨ts ++ us, (allSteps_append _ _ _).mpr ⟨hts, hus⟩, run_append _ _ _⟩

theorem Reaches.tick {t : Tick} (hworks : Works capacity s t) :
    Reaches capacity s (NvRec.tick s t) := ⟨[t], ⟨hworks, trivial⟩, rfl⟩

theorem calling_reaches {s' : NVRecEngine} (h : Calling st₀ value s)
    (hreaches : Reaches capacity s s') : Calling st₀ value s' := by
  obtain ⟨ts, hts, rfl⟩ := hreaches
  exact (throughout_of_allSteps (J := Calling st₀ value) (fun _ _ hc => calling_tick hc) h hts).last

/-- **A flush that is running ends**, whatever the client does not do. -/
theorem reaches_finish (capacity : Nat) (h : s.Inv) :
    ∃ s', Reaches capacity s s' ∧ s'.Inv ∧ FlushFrame s s' ∧ ∀ i, ¬s'.Unfinished i := by
  rcases unfinished_cases h with ⟨i, hi, -⟩ | hnone
  · generalize hm : stepsLeft (s.flushList i) (s.flushes i).pc = m
    induction m generalizing s with
    | zero =>
      have hok : (Tick.flush i {}).Ok := ⟨rfl, rfl, rfl⟩
      have hstep := stepsLeft_flushStep h.usable hi.1 hi.2 hok
      omega
    | succ m ih =>
      have hworks : Works capacity s (.flush i {}) := ⟨⟨rfl, rfl, rfl⟩, trivial⟩
      have hinv := inv_flushStep h i hworks.1
      have hframe := flushFrame h i hworks.1
      have hstep := stepsLeft_flushStep h.usable hi.1 hi.2 hworks.1
      rcases unfinished_cases hinv with ⟨j, hj, hlast⟩ | hnone
      · have hlast' := (h.pending i hi.1 hi.2).last
        have hlaunched := hframe.launched
        obtain rfl : j = i := by omega
        obtain ⟨s', hreaches, hinv', hframe', hnone⟩ := ih hinv hj (by omega)
        exact ⟨s', (Reaches.tick hworks).trans hreaches, hinv', hframe.trans hframe', hnone⟩
      · exact ⟨_, Reaches.tick hworks, hinv, hframe, hnone⟩
  · exact ⟨s, .refl s, h, .refl s, hnone⟩

theorem reaches_commit (h : s.Inv) (hpc : s.client = .transacting value)
    (hroom : s.lookupTable value.key ≠ none ∨ (s.pools s.pool).list.heap.length < capacity) :
    ∃ s', Reaches capacity s s' ∧ s'.client = .idle (.returned .kSuccess) := by
  have hworks : Works capacity s (.client {}) := by
    refine ⟨rfl, fun v hv => iff_of_true rfl ?_⟩
    rw [hpc] at hv
    obtain rfl := ClientPc.transacting.inj hv
    exact hroom
  refine ⟨_, Reaches.tick hworks, ?_⟩
  have hmoved := transact_moved h.usable hpc {}
  show (s.clientStep {}).client = _
  rw [clientStep, hpc]
  show (s.transact {} value).client = _
  rw [if_pos rfl] at hmoved
  generalize s.transact {} value = s' at hmoved ⊢
  cases hmoved with
  | insert v _ _ => rfl
  | update v _ _ _ => rfl

theorem reaches_launching (h : s.Inv) (hpc : s.client = .waiting value) :
    ∃ s', Reaches capacity s s' ∧ s'.client = .launching value := by
  obtain ⟨s', hreaches, hinv, hframe, hnone⟩ := reaches_finish capacity h
  have hpc' : s'.client = .waiting value := hframe.client.trans hpc
  have hworks : Works capacity s' (.client {}) := by
    refine ⟨rfl, fun v hv => ?_⟩
    rw [hpc'] at hv
    cases hv
  refine ⟨_, hreaches.trans (Reaches.tick hworks), ?_⟩
  show (s'.clientStep {}).client = _
  rw [clientStep, hpc']
  show (s'.awaitFlush value).client = _
  rw [awaitFlush]
  cases hfuture : s'.flushResult with
  | none => rfl
  | some j =>
    have hj := hinv.future j hfuture
    have hfin : (s'.flushes j).pc.isFinished = true := by
      by_contra hfin
      exact hnone j ⟨hj, by simpa using hfin⟩
    simp only [(hinv.ended j hj hfin).result]

theorem reaches_nextPool (h : Calling st₀ value s) (hpc : s.client = .launching value) :
    ∃ s', Reaches capacity s s' ∧ s'.client = .transacting value ∧
      (s'.pools s'.pool).list.heap.length = 0 := by
  have hworks : ∀ {u : NVRecEngine}, (∀ v, u.client ≠ .transacting v) →
      Works capacity u (.client {}) := fun hu => ⟨rfl, fun v hv => absurd hv (hu v)⟩
  have hlaunch : Reaches capacity s (s.launchFlush value) := by
    have htick := Reaches.tick (hworks (u := s) (by simp [hpc]))
    rwa [NvRec.tick, clientStep, hpc] at htick
  have hcalling := calling_reaches h hlaunch
  have hopening : (s.launchFlush value).client = .opening value := rfl
  generalize s.launchFlush value = u at hlaunch hcalling hopening
  have hnext := Reaches.tick (hworks (u := u) (by simp [hopening]))
  have hinv := calling_reaches hcalling hnext
  have hopens : ({} : ClientEnv).opens = true := rfl
  obtain ⟨s', hmade, hs'⟩ := openNextPool_made u hopens value
  have hstep : NvRec.tick u (.client {}) = s'.started (.transacting value) := by
    rw [NvRec.tick, clientStep, hopening]
    exact hs'
  rw [hstep] at hnext hinv
  refine ⟨_, hlaunch.trans hnext, rfl, ?_⟩
  have hbase := SameWorld.counted u
  rcases ownFiles_poolMade (c := .transacting value) hcalling.inv hbase hmade with
    ⟨-, hfile⟩ | ⟨-, hempty, -⟩
  · exact (next_created hcalling.inv hcalling.session ⟨value, hopening⟩ hfile).elim
  · rw [← length_tuples (hinv.inv.lists _)]
    exact congrArg List.length hempty

/-- **Calls end.**  With room for one node in a pool, some working schedule takes
    a call to its end and leaves no flush running. -/
theorem persistRaw_returns {st : InPlace Tuple UInt64} (h : s.Idle st) (hcapacity : 0 < capacity)
    (value : Tuple) :
    ∃ schedule, AllSteps tick (Works capacity) (step s (.call value)) schedule ∧
      (persistRaw schedule s value).1 = .returned .kSuccess ∧
      Quiet (persistRaw schedule s value).2 := by
  have hcalling := calling_call h value
  have hpc : (step s (.call value)).client = .transacting value := by
    rw [step, if_pos h.idle]
  have hend : ∃ s', Reaches capacity (step s (.call value)) s' ∧
      s'.client = .idle (.returned .kSuccess) := by
    generalize step s (.call value) = u at hcalling hpc
    by_cases hroom : u.lookupTable value.key ≠ none ∨ (u.pools u.pool).list.heap.length < capacity
    · exact reaches_commit hcalling.inv hpc hroom
    · have hworks : Works capacity u (.client { commits := false }) := by
        refine ⟨rfl, fun v hv => iff_of_false Bool.false_ne_true ?_⟩
        rw [hpc] at hv
        obtain rfl := ClientPc.transacting.inj hv
        exact hroom
      have habort := Reaches.tick hworks
      have hcalling₁ := calling_reaches hcalling habort
      have hwaiting : (NvRec.tick u (.client { commits := false })).client = .waiting value := by
        rw [NvRec.tick, clientStep, hpc]
        have hopen := (hcalling.inv.current (not_opening_of_client hpc rfl)).isOpen
        simp [transact, hopen]
      obtain ⟨u₂, hreaches₂, hlaunching⟩ : ∃ u₂, Reaches capacity _ u₂ ∧
        u₂.client = .launching value := reaches_launching hcalling₁.inv hwaiting
      have hcalling₂ := calling_reaches hcalling₁ hreaches₂
      obtain ⟨u₃, hreaches₃, hpc₃, hempty⟩ : ∃ u₃, Reaches capacity u₂ u₃ ∧
        u₃.client = .transacting value ∧ (u₃.pools u₃.pool).list.heap.length = 0 :=
        reaches_nextPool hcalling₂ hlaunching
      have hcalling₃ := calling_reaches hcalling₂ hreaches₃
      obtain ⟨u₄, hreaches₄, hidle⟩ := reaches_commit hcalling₃.inv hpc₃ (Or.inr (hempty ▸ hcapacity))
      exact ⟨u₄, ((habort.trans hreaches₂).trans hreaches₃).trans hreaches₄, hidle⟩
  obtain ⟨s₁, hreaches₁, hidle⟩ := hend
  obtain ⟨s₂, hreaches₂, hinv, hframe, hnone⟩ := reaches_finish capacity
    (calling_reaches hcalling hreaches₁).inv
  have hidle₂ := hframe.client.trans hidle
  obtain ⟨schedule, hworks, hrun⟩ := hreaches₁.trans hreaches₂
  refine ⟨schedule, hworks, ?_, ?_⟩
  · rw [persistRaw, if_pos h.idle, hrun]
    simp only [hidle₂]
  · rw [persistRaw, if_pos h.idle, hrun]
    simp only [hidle₂]
    refine ⟨by rw [hidle₂]; rfl, fun i hi => ?_⟩
    by_contra hfin
    exact hnone i ⟨hi, by simpa using hfin⟩

end NVRecEngine

end NvrecYcsb.NvRec
