/-
  NvrecYcsb/BenchmarkRun.lean
  ===========================
  **The benchmark over NVMDB**, from the first insert to the last transaction
  (`ycsbc.cc`, `core/client.h`, `core/core_workload.h`, `db/nvmdb.cc`).

  The clients share one workload and one store.  An insert of the load draws its key and
  calls the store later; a transaction draws its key, then its fields and values, and
  makes its calls one by one, while other clients do the same.  A call that throws is the
  last of its client, and undefined behaviour is the last of all.

  * `answerTo_spec`: what one call finds, and what it leaves;
  * `loaded_of_complete`: a load that completes has every key it drew in the store;
  * `finds_throughout`: from then on no call misses its record, and a read of all fields
    gives those that were loaded.
-/
import NvrecYcsb.ClientRequests
import NvrecYcsb.NvmDbScan

namespace NvrecYcsb.BenchmarkRun

open CppRuntime RecoveryDefs RecoveryInterface Runs Workload TransactionKeys ClientRequests
open NvmDb (NVMDB Op Tables record kOK kErrorNoData)

/-! ### The machine -/

/-- A call of the store, and what came back: the status, and the records read. -/
structure Answer where
  call : DbCall
  status : Outcome Int
  result : List (List KVPair)

/-- The workload and its clients, the store, and the calls that each client has still to
    make: `none` between transactions, no call when one did not return. -/
structure System (D : DoubleArith) (σ : Type) where
  keys : State D
  db : NVMDB σ
  calls : Nat → Option (List DbCall)
  left : Nat → Nat            -- the calls of DoInsert still to come
  answers : List Answer

section Machine

variable {D : DoubleArith} {ω σ : Type} (engine : RecoveryEngine ω σ)

/-- A call is made. -/
def answerTo (env : ω) (db : NVMDB σ) (call : DbCall) : Answer × NVMDB σ :=
  match call with
  | .read table key fields =>
    let (status, pairs) := db.read table key fields []
    (⟨call, .returned status, [pairs]⟩, db)
  | .scan table key len fields =>
    let (status, records) := db.scan table key len fields []
    (⟨call, status, records⟩, db)
  | .update table key values =>
    let (status, db) := db.apply engine env (.update table key values)
    (⟨call, status, []⟩, db)
  | .insert table key values =>
    let (status, db) := db.apply engine env (.insert table key values)
    (⟨call, status, []⟩, db)

namespace System

def setCalls (s : System D σ) (c : Nat) (calls : Option (List DbCall)) : System D σ :=
  { s with calls := Function.update s.calls c calls }

/-- The next call of a client; after the last one `DoTransaction` returns, and so does
    `DoInsert`, whose client is not in a transaction. -/
def makeCall (threads : Nat) (s : System D σ) (c : Nat) (env : ω) : System D σ :=
  match s.calls c with
  | some (call :: calls) =>
    let (answer, db) := answerTo engine env s.db call
    let s := { s with db := db, answers := s.answers ++ [answer] }
    match answer.status, calls with
    | .returned status, [] =>
      { s.setCalls c none with keys := TransactionKeys.step threads s.keys (.finish c status) }
    | .returned _, calls => s.setCalls c (some calls)
    | _, _ => s.setCalls c (some [])
  | _ => s

/-- `DoInsert` up to its call. -/
def startInsert (s : System D σ) (c : Nat) (d : Draws) : System D σ :=
  let key := s.keys.workload.nextSequenceKey.2.1
  { s.setCalls c (some (transactionInsert s.keys.workload { d with key := key })) with
    keys := s.keys.drawSequenceKey.2
    left := Function.update s.left c (s.left c - 1) }

/-- The calls of the transaction that a client has drawn the key of. -/
def request (s : System D σ) (c : Nat) (d : Draws) : System D σ :=
  match s.calls c, s.keys.clients c with
  | none, .requesting op key =>
    s.setCalls c (some (doTransaction s.keys.workload op { d with key := key }))
  | none, .inserting _ keyNum =>
    s.setCalls c (some (transactionInsert s.keys.workload
      { d with key := s.keys.workload.buildKeyName keyNum }))
  | _, _ => s

end System

/-- Some call ran into undefined behaviour: nothing more is said. -/
def System.over (s : System D σ) : Bool :=
  s.answers.any fun a => a.status matches .undefined

inductive LoadAction (ω : Type) where
  | insert (c : Nat) (d : Draws)
  | call (c : Nat) (env : ω)

/-- One step of one of the clients while they load. -/
def loadStep (threads : Nat) (s : System D σ) (a : LoadAction ω) : System D σ :=
  if s.over then s
  else
    match a with
    | .insert c d =>
      if c < threads ∧ 0 < s.left c ∧ (s.calls c).isNone then s.startInsert c d else s
    | .call c env => s.makeCall engine threads c env

inductive Action (ω : Type) where
  | start (c : Nat) (op : Operation)
  | draw (c : Nat) (keyNum : UInt64)
  | request (c : Nat) (d : Draws)
  | call (c : Nat) (env : ω)

/-- One step of one of the clients after the load. -/
def step (threads : Nat) (s : System D σ) (a : Action ω) : System D σ :=
  if s.over then s
  else
    match a with
    | .start c op => { s with keys := TransactionKeys.step threads s.keys (.start c op) }
    | .draw c keyNum => { s with keys := TransactionKeys.step threads s.keys (.draw c keyNum) }
    | .request c d => s.request c d
    | .call c env => s.makeCall engine threads c env

/-- Before the load; each client is to make `numOps` inserts. -/
def initially (wl : CoreWorkload D) (recEngine : σ) (numOps : Nat) : System D σ :=
  { keys := State.initial wl, db := ⟨∅, recEngine⟩, calls := fun _ => none
    left := fun _ => numOps, answers := [] }

/-- Every client has made its inserts, and each of them returned. -/
def LoadComplete (threads : Nat) (s : System D σ) : Prop :=
  ∀ c < threads, s.left c = 0 ∧ s.calls c = none

end Machine

/-! ### One call -/

section Calls

variable {D : DoubleArith} {ω σ : Type} {engine : RecoveryEngine ω σ} {wl : CoreWorkload D}

/-- The names of the fields that are loaded, in order. -/
def fieldNames (wl : CoreWorkload D) : List Str :=
  (List.range wl.fieldCount.toNat).map fun i => str "field" ++ stdToString i

/-- What a call is to find: a read, its record with the fields that were loaded, and of a
    single field nothing (its name is none of theirs); a change, its record.  A scan that
    finds its first record does not return. -/
def Finds (wl : CoreWorkload D) (a : Answer) : Prop :=
  match a.call with
  | .read _ _ none => a.status = .returned kOK ∧
      ∃ values, a.result = [values] ∧ values.map Prod.fst = fieldNames wl
  | .read _ _ (some _) => a.status = .returned kOK ∧ a.result = [[]]
  | .scan _ _ _ _ => a.status = .undefined
  | .update _ _ _ => a.status ≠ .returned kErrorNoData
  | .insert _ _ _ => a.status ≠ .returned kErrorNoData

/-- A call that a client makes when the keys `present` are in the store. -/
def CallOk (wl : CoreWorkload D) (present : List Str) : DbCall → Prop
  | .read table key fields => table = wl.tableName ∧ key ∈ present ∧
      ∀ names, fields = some names → ∃ draw, names = [requestedField draw]
  | .scan table key _ _ => table = wl.tableName ∧ key ∈ present
  | .update table key values => table = wl.tableName ∧ key ∈ present ∧
      ∀ p ∈ values, p.1 ∈ fieldNames wl
  | .insert table _ values => table = wl.tableName ∧ values.map Prod.fst = fieldNames wl

/-- The records of the store have the fields that are loaded, and those of the keys
    `present` are there. -/
structure Stocked (wl : CoreWorkload D) (present : List Str) (tables : Tables) : Prop where
  names : ∀ table key values, record tables table key = some values →
    values.map Prod.fst = fieldNames wl
  present : ∀ key ∈ present, record tables wl.tableName key ≠ none

theorem stocked_empty : Stocked wl [] ∅ := by
  refine ⟨?_, by simp⟩
  intro table key values hrecord
  rw [NvmDb.record_empty] at hrecord
  cases hrecord

theorem names_buildValues (d : Draws) : (buildValues wl d).map Prod.fst = fieldNames wl := by
  rw [buildValues, List.map_map]
  rfl

/-- Pairs with names that are there change no names. -/
theorem names_foldl_mergeValue {values storedValues : List KVPair}
    (h : ∀ p ∈ values, p.1 ∈ storedValues.map Prod.fst) :
    (values.foldl NvmDb.mergeValue storedValues).map Prod.fst = storedValues.map Prod.fst := by
  induction values generalizing storedValues with
  | nil => rfl
  | cons value values ih =>
    have hmerge : (NvmDb.mergeValue storedValues value).map Prod.fst =
        storedValues.map Prod.fst := by
      rw [NvmDb.names_mergeValue, if_pos (h value List.mem_cons_self)]
    rw [List.foldl_cons, ih, hmerge]
    intro p hp
    rw [hmerge]
    exact h p (List.mem_cons_of_mem value hp)

/-- Nothing but a delete takes a record away. -/
theorem record_ne_none_tablesAfter {tables : Tables} {op : Op}
    (hop : ∀ table key, op ≠ .delete table key) {table key : Str} (h : record tables table key ≠ none) :
    record (op.tablesAfter tables) table key ≠ none := by
  rw [NvmDb.record_tablesAfter]
  split_ifs
  · cases op with
    | insert table' key' values => exact Option.some_ne_none values
    | update table' key' values => simpa [Op.recordAfter] using h
    | delete table' key' => exact absurd rfl (hop table' key')
  · exact h

/-- A change that is no delete keeps the records with their fields. -/
theorem stocked_tablesAfter {present : List Str} {tables : Tables} {op : Op}
    (hdb : Stocked wl present tables) (hop : ∀ table key, op ≠ .delete table key)
    (hinsert : ∀ table key values, op = .insert table key values →
      values.map Prod.fst = fieldNames wl)
    (hupdate : ∀ table key values, op = .update table key values →
      ∀ p ∈ values, p.1 ∈ fieldNames wl) : Stocked wl present (op.tablesAfter tables) := by
  constructor
  · apply NvmDb.forall_record_tablesAfter hdb.names hinsert
    intro table key values storedValues hop' hstored
    rw [names_foldl_mergeValue, hstored]
    rw [hstored]
    exact hupdate table key values hop'
  · intro key hkey
    exact record_ne_none_tablesAfter hop (hdb.present key hkey)

/-- The tables after a call. -/
theorem tables_answerTo (env : ω) (db : NVMDB σ) (call : DbCall) :
    (answerTo engine env db call).2.tables =
      (call.op.map fun op => op.tablesAfter db.tables).getD db.tables := by
  cases call with
  | read table key fields => rfl
  | scan table key len fields => rfl
  | update table key values => exact NvmDb.tables_apply engine env db (.update table key values)
  | insert table key values => exact NvmDb.tables_apply engine env db (.insert table key values)

/-- **One call** finds its record, and leaves the records with their fields. -/
theorem answerTo_spec (engine : RecoveryEngine ω σ) {present : List Str} {db : NVMDB σ}
    {call : DbCall} (hcall : CallOk wl present call) (hdb : Stocked wl present db.tables) (env : ω) :
    Finds wl (answerTo engine env db call).1 ∧
      Stocked wl present (answerTo engine env db call).2.tables := by
  cases call with
  | read table key fields =>
    obtain ⟨rfl, hkey, hfields⟩ := hcall
    obtain ⟨values, hvalues⟩ := Option.ne_none_iff_exists'.mp (hdb.present key hkey)
    have hnames := hdb.names _ _ _ hvalues
    refine ⟨?_, hdb⟩
    rw [answerTo, NvmDb.read_eq, hvalues]
    cases fields with
    | none => exact ⟨rfl, values, rfl, hnames⟩
    | some names =>
      obtain ⟨draw, rfl⟩ := hfields names rfl
      refine ⟨rfl, congrArg (fun pairs => [pairs]) ?_⟩
      -- the name asked for is none of the record's
      apply List.filter_eq_nil_iff.mpr
      intro p hp hmem
      have hname : p.1 ∈ fieldNames wl := hnames ▸ List.mem_map_of_mem hp
      obtain ⟨i, _, hi⟩ := List.mem_map.mp hname
      refine requestedField_not_fieldName draw ⟨i, ?_⟩
      rw [hi]
      exact (List.mem_singleton.mp (of_decide_eq_true hmem)).symm
  | scan table key len fields =>
    obtain ⟨rfl, hkey⟩ := hcall
    refine ⟨?_, hdb⟩
    have hfound := Option.isSome_iff_ne_none.mpr (hdb.present key hkey)
    rw [answerTo, NvmDb.scan_of_record hfound]
    rfl
  | update table key values =>
    obtain ⟨rfl, hkey, hvalues⟩ := hcall
    constructor
    · intro hmiss
      exact hdb.present key hkey ((NvmDb.update_noData_iff engine env db _ _ _).mp hmiss)
    · rw [tables_answerTo, DbCall.op, Option.map_some, Option.getD_some]
      refine stocked_tablesAfter hdb ?_ ?_ ?_
      · rintro _ _ ⟨⟩
      · rintro _ _ _ ⟨⟩
      · rintro _ _ _ ⟨⟩
        exact hvalues
  | insert table key values =>
    obtain ⟨rfl, hvalues⟩ := hcall
    constructor
    · show (db.insert engine env _ key values).1 ≠ .returned kErrorNoData
      rw [NVMDB.insert]
      exact NvmDb.persist_ne_noData engine env _ key _
    · rw [tables_answerTo, DbCall.op, Option.map_some, Option.getD_some]
      refine stocked_tablesAfter hdb ?_ ?_ ?_
      · rintro _ _ ⟨⟩
      · rintro _ _ _ ⟨⟩
        exact hvalues
      · rintro _ _ _ ⟨⟩

/-- The calls that are to come are such calls, and those made have found their records. -/
structure Serving (wl : CoreWorkload D) (present : List Str) (s : System D σ) : Prop where
  calls : ∀ c calls, s.calls c = some calls → ∀ call ∈ calls, CallOk wl present call
  stocked : Stocked wl present s.db.tables
  finds : ∀ a ∈ s.answers, Finds wl a

variable {present : List Str} {s : System D σ} {threads c : Nat}

/-- What a call that is made does to the system. -/
structure Made (engine : RecoveryEngine ω σ) (threads : Nat) (s : System D σ) (c : Nat) (env : ω)
    (call : DbCall) (calls : List DbCall) (s' : System D σ) : Prop where
  db : s'.db = (answerTo engine env s.db call).2
  answers : s'.answers = s.answers ++ [(answerTo engine env s.db call).1]
  calls : ∃ next, s'.calls = Function.update s.calls c next ∧
    ∀ calls', next = some calls' → ∀ call' ∈ calls', call' ∈ calls
  keys : s'.keys = s.keys ∨
    ∃ status, s'.keys = TransactionKeys.step threads s.keys (.finish c status)
  left : s'.left = s.left

theorem makeCall_cases (threads : Nat) (s : System D σ) (c : Nat) (env : ω) :
    s.makeCall engine threads c env = s ∨ ∃ call calls, s.calls c = some (call :: calls) ∧
      Made engine threads s c env call calls (s.makeCall engine threads c env) := by
  rw [System.makeCall]
  split
  · rename_i call calls hcalls
    refine .inr ⟨call, calls, hcalls, ?_⟩
    dsimp only
    split
    · exact ⟨rfl, rfl, ⟨none, rfl, nofun⟩, .inr ⟨_, rfl⟩, rfl⟩
    · refine ⟨rfl, rfl, ⟨some _, rfl, ?_⟩, .inl rfl, rfl⟩
      rintro _ ⟨⟩ call' hcall'
      exact hcall'
    · refine ⟨rfl, rfl, ⟨some [], rfl, ?_⟩, .inl rfl, rfl⟩
      rintro _ ⟨⟩
      simp
  · exact .inl rfl

/-- The calls of a client are replaced. -/
theorem Serving.update (h : Serving wl present s) {next : Option (List DbCall)}
    (hnext : ∀ calls, next = some calls → ∀ call ∈ calls, CallOk wl present call) (c' : Nat)
    {calls : List DbCall} (hcalls : Function.update s.calls c next c' = some calls) :
    ∀ call ∈ calls, CallOk wl present call := by
  by_cases hc : c' = c
  · subst hc
    rw [Function.update_self] at hcalls
    exact hnext calls hcalls
  · rw [Function.update_of_ne hc] at hcalls
    exact h.calls c' calls hcalls

theorem Made.serving {env : ω} {call : DbCall} {calls : List DbCall} {s' : System D σ}
    (hmade : Made engine threads s c env call calls s') (h : Serving wl present s)
    (hcalls : s.calls c = some (call :: calls)) : Serving wl present s' := by
  have hok := h.calls c _ hcalls
  obtain ⟨hfinds, hstocked⟩ := answerTo_spec engine (hok call List.mem_cons_self)
    h.stocked env
  obtain ⟨next, hnext, hsub⟩ := hmade.calls
  refine ⟨?_, ?_, ?_⟩
  · intro c' calls' hcalls'
    rw [hnext] at hcalls'
    refine h.update ?_ c' hcalls'
    intro calls'' hnext' call' hcall'
    exact hok call' (List.mem_cons_of_mem call (hsub calls'' hnext' call' hcall'))
  · rw [hmade.db]
    exact hstocked
  · rw [hmade.answers]
    intro a ha
    rcases List.mem_append.mp ha with ha | ha
    · exact h.finds a ha
    · rw [List.mem_singleton.mp ha]
      exact hfinds

end Calls

/-! ### The load -/

section Load

variable {D : DoubleArith} {ω σ : Type} {engine : RecoveryEngine ω σ} {wl : CoreWorkload D}
  {threads numOps : Nat} {s : System D σ}

/-- The draws are those of a load, and every key that was drawn is in the store or on its
    way to it. -/
structure Loading (wl : CoreWorkload D) (threads numOps : Nat) (s : System D σ) : Prop
    extends Serving wl [] s where
  keys : ∃ order, s.keys = loaded wl order ∧ (∀ c ∈ order, c < threads) ∧
    ∀ c < threads, order.count c + s.left c = numOps
  clients : ∀ c, threads ≤ c → s.calls c = none
  inserted : ∀ key ∈ s.keys.insertedKeys, record s.db.tables wl.tableName key ≠ none ∨
    ∃ c values, s.calls c = some [.insert wl.tableName key values]

theorem loading_initially (wl : CoreWorkload D) (recEngine : σ) (threads numOps : Nat) :
    Loading wl threads numOps (initially wl recEngine numOps) where
  calls := nofun
  stocked := stocked_empty
  finds := nofun
  keys := ⟨[], rfl, nofun, fun c _ => by simp [initially]⟩
  clients _ _ := rfl
  inserted := nofun

/-- A client that loads is between transactions. -/
theorem finish_loaded (threads : Nat) (order : List Nat) (c : Nat) (status : Int) :
    TransactionKeys.step threads (loaded wl order) (.finish c status) = loaded wl order := by
  simp [TransactionKeys.step, (loaded_idle wl order).1]

theorem Loading.makeCall (h : Loading wl threads numOps s) (c : Nat) (env : ω) :
    Loading wl threads numOps (s.makeCall engine threads c env) := by
  rcases makeCall_cases threads s c env with heq | ⟨call, calls, hcalls, hmade⟩
  · rw [heq]
    exact h
  obtain ⟨order, hkeys, hthreads, hcount⟩ := h.keys
  have hsame : (s.makeCall engine threads c env).keys = s.keys := by
    rcases hmade.keys with heq | ⟨status, heq⟩
    · exact heq
    · rw [heq, hkeys, finish_loaded]
  obtain ⟨next, hnext, _⟩ := hmade.calls
  refine { hmade.serving h.toServing hcalls with
    keys := ⟨order, by rw [hsame, hkeys], hthreads, by rw [hmade.left]; exact hcount⟩
    clients := ?_, inserted := ?_ }
  · intro c' hc'
    have hne : c' ≠ c := by
      rintro rfl
      rw [h.clients c' hc'] at hcalls
      cases hcalls
    rw [hnext, Function.update_of_ne hne]
    exact h.clients c' hc'
  · rw [hsame, hmade.db, tables_answerTo]
    intro key hkey
    have hinsert : ∃ key' values, call = .insert wl.tableName key' values := by
      have hok := h.calls c _ hcalls call List.mem_cons_self
      cases call with
      | insert table key' values => exact ⟨key', values, by rw [hok.1]⟩
      | read table key' fields => exact absurd hok.2.1 List.not_mem_nil
      | scan table key' len fields => exact absurd hok.2 List.not_mem_nil
      | update table key' values => exact absurd hok.2.1 List.not_mem_nil
    obtain ⟨key', values, rfl⟩ := hinsert
    rw [DbCall.op, Option.map_some, Option.getD_some]
    rcases h.inserted key hkey with hrecord | ⟨c', values', hpending⟩
    · refine .inl (record_ne_none_tablesAfter ?_ hrecord)
      rintro _ _ ⟨⟩
    · by_cases hc : c' = c
      · subst hc
        obtain ⟨⟨⟩, rfl⟩ := List.cons.inj (Option.some.inj (hcalls.symm.trans hpending))
        left
        rw [NvmDb.record_tablesAfter, if_pos ⟨rfl, rfl⟩]
        exact Option.some_ne_none values
      · exact .inr ⟨c', values', by rw [hnext, Function.update_of_ne hc, hpending]⟩

theorem Loading.startInsert (h : Loading wl threads numOps s) {c : Nat} (hc : c < threads)
    (hleft : 0 < s.left c) (hcalls : s.calls c = none) (d : Draws) :
    Loading wl threads numOps (s.startInsert c d) := by
  obtain ⟨order, hkeys, hthreads, hcount⟩ := h.keys
  have hworkload : s.keys.workload = advanced wl (loaded wl order).insertedKeys.length := by
    rw [hkeys]
    exact (drawn_loaded wl order).1.workload
  have hnames : ∀ key, transactionInsert s.keys.workload { d with key := key } =
      [.insert wl.tableName key (buildValues wl d)] := by
    intro key
    rw [hworkload]
    rfl
  have hother : ∀ c', c' ≠ c → (s.startInsert c d).calls c' = s.calls c' := fun c' hne =>
    Function.update_of_ne hne ..
  refine { calls := ?_, stocked := h.stocked, finds := h.finds, keys := ?_, clients := ?_
           inserted := ?_ }
  · intro c' calls
    refine h.update ?_ c'
    rintro _ ⟨⟩
    rw [hnames]
    intro call hcall
    rw [List.mem_singleton.mp hcall]
    exact ⟨rfl, names_buildValues d⟩
  · refine ⟨order ++ [c], ?_, ?_, ?_⟩
    · rw [loaded, run_append, ← loaded, ← hkeys]
      rfl
    · intro c' hc'
      rcases List.mem_append.mp hc' with hc' | hc'
      · exact hthreads c' hc'
      · rw [List.mem_singleton.mp hc']
        exact hc
    · intro c' hc'
      have hold := hcount c' hc'
      rw [List.count_append]
      show _ + Function.update s.left c (s.left c - 1) c' = _
      by_cases hne : c' = c
      · subst hne
        rw [Function.update_self, List.count_singleton_self]
        omega
      · rw [Function.update_of_ne hne, List.count_singleton, if_neg (by simpa using Ne.symm hne)]
        omega
  · intro c' hc'
    rw [hother c' (by omega)]
    exact h.clients c' hc'
  · intro key hkey
    have hkey' : key ∈ s.keys.insertedKeys ++ [s.keys.workload.nextSequenceKey.2.1] := hkey
    rcases List.mem_append.mp hkey' with hold | hnew
    · rcases h.inserted key hold with hrecord | ⟨c', values, hpending⟩
      · exact .inl hrecord
      · have hne : c' ≠ c := by
          rintro rfl
          rw [hcalls] at hpending
          cases hpending
        exact .inr ⟨c', values, by rw [hother c' hne, hpending]⟩
    · right
      refine ⟨c, buildValues wl d, ?_⟩
      rw [List.mem_singleton.mp hnew, ← hnames]
      exact Function.update_self ..

theorem loading_loadStep (h : Loading wl threads numOps s) (a : LoadAction ω) :
    Loading wl threads numOps (loadStep engine threads s a) := by
  unfold loadStep
  split_ifs with hover
  · exact h
  · cases a with
    | insert c d =>
      dsimp only
      split_ifs with hc
      · exact h.startInsert hc.1 hc.2.1 (Option.isNone_iff_eq_none.mp hc.2.2) d
      · exact h
    | call c env => exact h.makeCall c env

/-- **A load that completes has all its keys in the store**, and its draws are those of an
    order of the clients' inserts. -/
theorem loaded_of_complete (h : Loading wl threads numOps s) (hcomplete : LoadComplete threads s) :
    ∃ order, LoadOrder threads numOps order ∧ s.keys = loaded wl order ∧
      Serving wl (sequenceKeys wl order.length) s ∧ ∀ c, s.calls c = none := by
  obtain ⟨order, hkeys, hthreads, hcount⟩ := h.keys
  have hnone : ∀ c, s.calls c = none := by
    intro c
    by_cases hc : c < threads
    · exact (hcomplete c hc).2
    · exact h.clients c (by omega)
  refine ⟨order, ⟨hthreads, ?_⟩, hkeys, ⟨?_, ⟨h.stocked.names, ?_⟩, h.finds⟩, hnone⟩
  · intro c hc
    have hall := hcount c hc
    rw [(hcomplete c hc).1] at hall
    exact hall
  · intro c calls hcalls
    rw [hnone c] at hcalls
    cases hcalls
  · intro key hkey
    obtain ⟨hdrawn, hlength⟩ := drawn_loaded wl order
    rw [← hlength, ← hdrawn.keys, ← hkeys] at hkey
    rcases h.inserted key hkey with hrecord | ⟨c, values, hpending⟩
    · exact hrecord
    · rw [hnone c] at hpending
      cases hpending

end Load

/-! ### The transactions -/

section Transactions

variable {D : DoubleArith} {ω σ : Type} {engine : RecoveryEngine ω σ} {wl : CoreWorkload D}
  {threads base : Nat} {present : List Str} {s : System D σ}

/-- A number that the loop of `NextTransactionKey` accepts is that of a loaded key. -/
theorem loaded_of_accepted {p : Properties} {recordCount : Int}
    (h : Configured D p wl recordCount 0) {threadCount : Int} (hthreads : 1 ≤ threadCount) (hrecords : threadCount ≤ recordCount)
    (hdvd : threadCount ∣ recordCount) {order : List Nat}
    (horder : LoadOrder threadCount.toNat (loadOps recordCount threadCount) order) {v : UInt64}
    (hv : v ≤ wl.insertKeySequence.last) :
    wl.buildKeyName v ∈ sequenceKeys wl order.length := by
  obtain ⟨hcounter, hsequence⟩ := init_spec h
  have hr := (stoi_range h.recordCount).2
  lift recordCount to ℕ using by omega with r
  lift threadCount to ℕ using by omega with t
  rw [Int.toNat_natCast] at horder
  rw [hsequence, ofInt_natCast, le_last_ofNat_iff (by omega) (by omega)] at hv
  rw [mem_sequenceKeys, loadOrder_length_div horder,
    Nat.mul_div_cancel' (Int.natCast_dvd_natCast.mp hdvd)]
  refine ⟨v.toNat, hv, ?_⟩
  rw [hcounter, UInt64.ofNat_toNat]
  exact congrArg wl.buildKeyName (UInt64.zero_add v)

/-- A client that requests a record requests one of these. -/
def Requesting (present : List Str) (clients : Nat → ClientPc) : Prop :=
  ∀ c op key, clients c = .requesting op key → key ∈ present

theorem Requesting.update {clients : Nat → ClientPc} (h : Requesting present clients)
    {pc : ClientPc} (hpc : ∀ op key, pc = .requesting op key → key ∈ present) (c : Nat) :
    Requesting present (Function.update clients c pc) := by
  intro c' op key hc'
  by_cases hc : c' = c
  · subst hc
    rw [Function.update_self] at hc'
    exact hpc op key hc'
  · rw [Function.update_of_ne hc] at hc'
    exact h c' op key hc'

theorem requesting_step (hcovered : ∀ v ≤ wl.insertKeySequence.last, wl.buildKeyName v ∈ present)
    {keys : State D} (hinv : Inv wl base keys) (h : Requesting present keys.clients)
    (a : TransactionKeys.Action) :
    Requesting present (TransactionKeys.step threads keys a).clients := by
  have hmoved := step_moved threads keys a
  generalize TransactionKeys.step threads keys a = keys' at hmoved ⊢
  cases hmoved with
  | stay => exact h
  | insert c => exact h.update (fun _ _ heq => by cases heq) c
  | choose c op hop hne => exact h.update (fun _ _ heq => by cases heq) c
  | accept c keyNum op key hpc hkey =>
    refine h.update ?_ c
    rintro _ _ ⟨⟩
    rw [hinv.drawn.workload] at hkey
    obtain ⟨hle, hname⟩ := CoreWorkload.acceptKey_eq_some.mp hkey
    rw [← hname]
    exact hcovered keyNum hle
  | done c status op key hpc => exact h.update (fun _ _ heq => by cases heq) c
  | inserted c status index keyNum hpc => exact h.update (fun _ _ heq => by cases heq) c

/-- The calls of a transaction on a record that is there. -/
theorem callOk_doTransaction (op : Operation) {d : Draws} (hkey : d.key ∈ present)
    (hdraw : d.updated.toNat < wl.fieldCount.toNat) :
    ∀ call ∈ doTransaction wl op d, CallOk wl present call := by
  have hfields : ∀ names, requestFields wl d = some names →
      ∃ draw, names = [requestedField draw] := by
    intro names hnames
    rw [requestFields] at hnames
    split_ifs at hnames
    exact ⟨d.requested, (Option.some.inj hnames).symm⟩
  have hvalues : ∀ p ∈ updateValues wl d, p.1 ∈ fieldNames wl := by
    intro p hp
    rw [updateValues] at hp
    split_ifs at hp
    · rw [← names_buildValues d]
      exact List.mem_map_of_mem hp
    · rw [List.mem_singleton.mp hp]
      exact List.mem_map.mpr ⟨_, List.mem_range.mpr hdraw, rfl⟩
  intro call hcall
  cases op with
  | insert =>
    rw [List.mem_singleton.mp hcall]
    exact ⟨rfl, names_buildValues d⟩
  | read =>
    rw [List.mem_singleton.mp hcall]
    exact ⟨rfl, hkey, hfields⟩
  | update =>
    rw [List.mem_singleton.mp hcall]
    exact ⟨rfl, hkey, hvalues⟩
  | scan =>
    rw [List.mem_singleton.mp hcall]
    exact ⟨rfl, hkey⟩
  | readModifyWrite =>
    rcases List.mem_cons.mp hcall with rfl | hcall
    · exact ⟨rfl, hkey, hfields⟩
    · rw [List.mem_singleton.mp hcall]
      exact ⟨rfl, hkey, hvalues⟩

/-- The clients run transactions on the loaded records. -/
structure Running (wl : CoreWorkload D) (base : Nat) (present : List Str) (s : System D σ) : Prop
    extends Serving wl present s where
  keys : Inv wl base s.keys
  requesting : Requesting present s.keys.clients

/-- The field that an update draws is one of the workload's. -/
def DrawOk (wl : CoreWorkload D) : Action ω → Prop
  | .request _ d => d.updated.toNat < wl.fieldCount.toNat
  | _ => True

instance (a : Action ω) : Decidable (DrawOk wl a) :=
  match a with
  | .start _ _ => isTrue trivial
  | .draw _ _ => isTrue trivial
  | .request _ d => inferInstanceAs (Decidable (d.updated.toNat < wl.fieldCount.toNat))
  | .call _ _ => isTrue trivial

theorem Running.request (h : Running wl base present s) (c : Nat) {d : Draws}
    (hdraw : d.updated.toNat < wl.fieldCount.toNat) : Running wl base present (s.request c d) := by
  have hset : ∀ calls : List DbCall, (∀ call ∈ calls, CallOk wl present call) →
      Running wl base present (s.setCalls c (some calls)) := by
    intro calls hcalls
    refine ⟨⟨?_, h.stocked, h.finds⟩, h.keys, h.requesting⟩
    intro c' calls'
    refine h.update ?_ c'
    rintro _ ⟨⟩
    exact hcalls
  rw [System.request, h.keys.drawn.workload]
  split
  · rename_i op key _ hpc
    refine hset _ ?_
    have hkey := h.requesting c op key hpc
    exact @callOk_doTransaction _ _ _ op { d with key := key } hkey hdraw
  · refine hset _ ?_
    intro call hcall
    rw [List.mem_singleton.mp hcall]
    exact ⟨rfl, names_buildValues d⟩
  · exact h

theorem Running.step_keys (hcovered : ∀ v ≤ wl.insertKeySequence.last, wl.buildKeyName v ∈ present)
    (h : Running wl base present s) (a : TransactionKeys.Action) :
    Running wl base present { s with keys := TransactionKeys.step threads s.keys a } :=
  ⟨⟨h.calls, h.stocked, h.finds⟩, inv_step h.keys a,
    requesting_step hcovered h.keys h.requesting a⟩

/-- **One step** of the transactions. -/
theorem running_step (hcovered : ∀ v ≤ wl.insertKeySequence.last, wl.buildKeyName v ∈ present)
    (h : Running wl base present s) {a : Action ω} (ha : DrawOk wl a) :
    Running wl base present (step engine threads s a) := by
  unfold step
  split_ifs with hover
  · exact h
  · cases a with
    | start c op => exact h.step_keys hcovered _
    | draw c keyNum => exact h.step_keys hcovered _
    | request c d => exact h.request c ha
    | call c env =>
      rcases makeCall_cases threads s c env with heq | ⟨call, calls, hcalls, hmade⟩
      · dsimp only
        rw [heq]
        exact h
      · refine ⟨hmade.serving h.toServing hcalls, ?_, ?_⟩
        · rcases hmade.keys with heq | ⟨status, heq⟩
          · rw [heq]
            exact h.keys
          · rw [heq]
            exact inv_step h.keys _
        · rcases hmade.keys with heq | ⟨status, heq⟩
          · rw [heq]
            exact h.requesting
          · rw [heq]
            exact requesting_step hcovered h.keys h.requesting _

/-- **The benchmark never misses a record.**  After a load that completes, from key 0 and
    shared evenly by the clients, every call that any client makes finds its record, in
    any interleaving, whatever is drawn and however the engine answers: a read of all
    fields returns those that were loaded, in their order; a read of one field returns
    none; no update is answered with a missing record; and a scan runs into the end of a
    function that returns nothing. -/
theorem finds_throughout {p : Properties} {recordCount : Int} (h : Configured D p wl recordCount 0)
    {threadCount : Int} (hthreads : 1 ≤ threadCount) (hrecords : threadCount ≤ recordCount)
    (hdvd : threadCount ∣ recordCount) (engine : RecoveryEngine ω σ) (recEngine : σ)
    (loads : List (LoadAction ω)) (actions : List (Action ω))
    (hactions : ∀ a ∈ actions, DrawOk wl a)
    (hcomplete : LoadComplete threadCount.toNat (run (loadStep engine threadCount.toNat)
      (initially wl recEngine (loadOps recordCount threadCount)) loads)) :
    Throughout (step engine threadCount.toNat) (fun s => ∀ a ∈ s.answers, Finds wl a)
      (run (loadStep engine threadCount.toNat)
        (initially wl recEngine (loadOps recordCount threadCount)) loads) actions := by
  have hloading : Throughout (loadStep engine threadCount.toNat)
      (Loading wl threadCount.toNat (loadOps recordCount threadCount))
      (initially wl recEngine (loadOps recordCount threadCount)) loads :=
    throughout_of_allSteps (fun _ a hs (_ : True) => loading_loadStep hs a)
      (loading_initially wl recEngine _ _) (allSteps_const.mpr fun _ _ => trivial)
  obtain ⟨order, horder, hkeys, hserving, _⟩ := loaded_of_complete hloading.last hcomplete
  have hrunning := @Running.mk _ _ _ order.length _ _ hserving (hkeys ▸ inv_loaded wl order) (by
    rw [hkeys]
    intro c op key hpc
    rw [(loaded_idle wl order).1] at hpc
    cases hpc)
  have hcovered : ∀ v ≤ wl.insertKeySequence.last,
      wl.buildKeyName v ∈ sequenceKeys wl order.length := fun v hv =>
    loaded_of_accepted h hthreads hrecords hdvd horder hv
  have hall : Throughout (step engine threadCount.toNat)
      (Running wl order.length (sequenceKeys wl order.length))
      (run (loadStep engine threadCount.toNat)
        (initially wl recEngine (loadOps recordCount threadCount)) loads) actions :=
    throughout_of_allSteps (P := fun _ a => DrawOk wl a)
      (fun s a hs ha => running_step hcovered hs ha) hrunning (allSteps_const.mpr hactions)
  refine hall.imp ?_
  intro s hs
  exact hs.finds

end Transactions

/-- Three clients that load a record each; two of them draw before the first call. -/
def threeLoads : List (LoadAction NvmBlk.BlkEnv) :=
  [.insert 0 drawThree, .insert 1 drawThree, .call 1 {}, .insert 2 drawThree, .call 0 {},
    .call 2 {}]

/-- A read and an update, one in between the other; a number that is drawn is refused. -/
def readDuringUpdate : List (Action NvmBlk.BlkEnv) :=
  [.start 0 .read, .draw 0 3, .start 1 .update, .draw 1 1, .draw 0 1, .request 1 drawThree,
    .request 0 drawThree, .call 1 {}, .call 0 {}]

theorem finds_throughout_readDuringUpdate :
    Throughout (step NvmBlk.engine 3) (fun s => ∀ a ∈ s.answers, Finds threeRecordsWorkload a)
      (run (loadStep NvmBlk.engine 3)
        (initially threeRecordsWorkload (NvmBlk.NVMBlkEngine.create 1) 1) threeLoads)
      readDuringUpdate := by
  refine @finds_throughout _ _ _ _ _ _ configured_threeRecords 3 (by decide) (by decide)
    (by decide) NvmBlk.engine (NvmBlk.NVMBlkEngine.create 1) threeLoads readDuringUpdate ?_ ?_
  · decide
  · have hloaded : ∀ c < 3, (run (loadStep NvmBlk.engine 3)
          (initially threeRecordsWorkload (NvmBlk.NVMBlkEngine.create 1) 1) threeLoads).left c = 0 ∧
        ((run (loadStep NvmBlk.engine 3)
          (initially threeRecordsWorkload (NvmBlk.NVMBlkEngine.create 1) 1)
          threeLoads).calls c).isNone := by
      decide +kernel
    intro c hc
    exact ⟨(hloaded c hc).1, Option.isNone_iff_eq_none.mp (hloaded c hc).2⟩

end NvrecYcsb.BenchmarkRun
