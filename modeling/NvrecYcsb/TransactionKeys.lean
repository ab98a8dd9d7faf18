/-
  NvrecYcsb/TransactionKeys.lean
  ==============================
  **Which keys the clients use** (`ycsbc.cc` around `core/core_workload.h` and
  `core/client.h`).

  `main2` first lets every client insert its share of the records, and then
  lets the clients run transactions.  All of them share one workload: an insert
  takes its number from `key_generator_`, every other transaction draws numbers
  until `NextTransactionKey` accepts one.

  A state holds the workload, where each client is, and the keys drawn so far.
  The load is a list of clients, one entry for each `DoInsert`; the transactions
  are a list of actions; both lists are in the order of the steps, so they range
  over all interleavings.

  * `onlyInsertedKeys_iff`: when a requested key is always an inserted one;
  * `follows_iff`: when the request range follows the inserts;
  * `insertedKeys_distinct`: no two inserts use the same key.
-/
import NvrecYcsb.CoreWorkload
import NvrecYcsb.NvmDb
import NvrecYcsb.Runs
import Mathlib.Algebra.BigOperators.Group.Finset.Basic

namespace NvrecYcsb.TransactionKeys

open CppRuntime FnvHash Workload Runs
open NvmDb (kOK)

/-! ### The machine -/

/-- Where a client is in `DoTransaction`.  An insert remembers which draw of the
    shared counter was its own. -/
inductive ClientPc where
  | idle
  | choosing (op : Operation)                    -- in the loop of NextTransactionKey
  | requesting (op : Operation) (key : Str)      -- calling the store with the key
  | inserting (index : Nat) (keyNum : UInt64)    -- TransactionInsert, calling the store

/-- The shared workload and the clients; the keys that inserts have drawn, the keys
    that transactions were given, and the numbers of the transaction inserts that
    returned `kOK`. -/
structure State (D : DoubleArith) where
  workload : CoreWorkload D
  clients : Nat → ClientPc
  insertedKeys : List Str
  requestedKeys : List Str
  acknowledged : List UInt64

inductive Action where
  | start (c : Nat) (op : Operation)     -- DoTransaction, with the operation chosen
  | draw (c : Nat) (keyNum : UInt64)     -- key_chooser_->Next() and the test of the loop
  | finish (c : Nat) (status : Int)      -- the call of the store returns

namespace State

variable {D : DoubleArith}

def initial (wl : CoreWorkload D) : State D :=
  { workload := wl, clients := fun _ => .idle, insertedKeys := [], requestedKeys := []
    acknowledged := [] }

def setClient (s : State D) (c : Nat) (pc : ClientPc) : State D :=
  { s with clients := Function.update s.clients c pc }

/-- `NextSequenceKey`, the number drawn and the state after it. -/
def drawSequenceKey (s : State D) : UInt64 × State D :=
  let (keyNum, key, workload) := s.workload.nextSequenceKey
  (keyNum, { s with workload := workload, insertedKeys := s.insertedKeys ++ [key] })

/-- `DoInsert` of a client, while loading. -/
def doInsert (s : State D) (_ : Nat) : State D := s.drawSequenceKey.2

/-- `DoTransaction` up to its first draw: an insert draws its number at once. -/
def startTransaction (s : State D) (c : Nat) (op : Operation) : State D :=
  match op with
  | .insert =>
    let (keyNum, next) := s.drawSequenceKey
    next.setClient c (.inserting s.insertedKeys.length keyNum)
  | op => s.setClient c (.choosing op)

end State

open State

variable {D : DoubleArith}

/-- One step of one of the clients; a step that cannot be taken changes nothing. -/
def step (threads : Nat) (s : State D) : Action → State D
  | .start c op =>
    match s.clients c with
    | .idle => if c < threads ∧ op ∈ s.workload.operations then s.startTransaction c op else s
    | _ => s
  | .draw c keyNum =>
    match s.clients c with
    | .choosing op =>
      match s.workload.acceptKey keyNum with
      | some key =>
        { s.setClient c (.requesting op key) with requestedKeys := s.requestedKeys ++ [key] }
      | none => s
    | _ => s
  | .finish c status =>
    match s.clients c with
    | .requesting _ _ => s.setClient c .idle
    | .inserting _ keyNum =>
      { s.setClient c .idle with
        acknowledged := if status = kOK then s.acknowledged ++ [keyNum] else s.acknowledged }
    | _ => s

/-- `total_ops / num_threads`, the calls of each client while loading. -/
def loadOps (recordCount threads : Int) : Nat := (recordCount.tdiv threads).toNat

/-- An order of the calls while loading: each client makes its share of them. -/
structure LoadOrder (threads numOps : Nat) (order : List Nat) : Prop where
  client : ∀ c ∈ order, c < threads
  calls : ∀ c < threads, order.count c = numOps

/-- The state after the load. -/
def loaded (wl : CoreWorkload D) (order : List Nat) : State D :=
  run doInsert (initial wl) order

/-! ### The properties -/

/-- Every key a transaction was given had been drawn by an insert. -/
def OnlyInsertedKeys (s : State D) : Prop := ∀ key ∈ s.requestedKeys, key ∈ s.insertedKeys

/-- The number of every transaction insert that returned `kOK` is in the request
    range: the rejection loop accepts it, and the latest generator, which subtracts
    a rank from the last number of the range, can give it. -/
def Follows (s : State D) : Prop :=
  ∀ keyNum ∈ s.acknowledged, keyNum ≤ s.workload.insertKeySequence.last ∧
    s.workload.acceptKey keyNum = some (s.workload.buildKeyName keyNum) ∧
    ∃ rank ≤ s.workload.insertKeySequence.last,
      s.workload.insertKeySequence.last - rank = keyNum

/-- Draw `index` of the shared counter, counted from the first of the load, gives
    a number in the request range.  After a load of records the counter has to wrap
    around first; without records the range is almost everything. -/
def InRange (recordCount : Int) (index : Nat) : Prop :=
  if 1 ≤ recordCount then 2 ^ 64 ≤ index ∧ (index % 2 ^ 64 : Nat) < recordCount
  else (index % 2 ^ 64 : Nat) < 2 ^ 64 + recordCount

/-- A transaction insert returns `kOK` only when its draw was in range. -/
def AcksInRange (recordCount : Int) (s : State D) : Action → Prop
  | .finish c status => status = kOK → ∀ index keyNum, s.clients c = .inserting index keyNum →
      InRange recordCount index
  | _ => True

/-! ### What the draws leave -/

/-- The workload `wl` after `n` draws of its sequence. -/
def advanced (wl : CoreWorkload D) (n : Nat) : CoreWorkload D :=
  { wl with keyGenerator := ⟨wl.keyGenerator.counter + .ofNat n⟩ }

/-- The keys of the first `n` draws. -/
def sequenceKeys (wl : CoreWorkload D) (n : Nat) : List Str :=
  (List.range n).map fun i => wl.buildKeyName (wl.keyGenerator.counter + .ofNat i)

/-- Apart from the counter the workload is as it was, and the inserted keys are
    those of consecutive draws. -/
structure Drawn (wl : CoreWorkload D) (s : State D) : Prop where
  workload : s.workload = advanced wl s.insertedKeys.length
  keys : s.insertedKeys = sequenceKeys wl s.insertedKeys.length

variable {wl : CoreWorkload D} {s : State D} {threads : Nat}

theorem drawn_initial (wl : CoreWorkload D) : Drawn wl (initial wl) := by
  refine ⟨?_, rfl⟩
  show wl = advanced wl 0
  simp [advanced]

theorem drawSequenceKey_num (h : Drawn wl s) :
    s.drawSequenceKey.1 = wl.keyGenerator.counter + .ofNat s.insertedKeys.length := by
  rw [drawSequenceKey, h.workload]
  rfl

theorem length_drawSequenceKey (s : State D) :
    s.drawSequenceKey.2.insertedKeys.length = s.insertedKeys.length + 1 := by
  rw [drawSequenceKey]
  exact List.length_append

theorem drawn_drawSequenceKey (h : Drawn wl s) : Drawn wl s.drawSequenceKey.2 := by
  constructor
  · rw [length_drawSequenceKey, drawSequenceKey, h.workload]
    simp [advanced, CoreWorkload.nextSequenceKey, CounterGenerator.next, UInt64.add_assoc]
  · rw [length_drawSequenceKey, sequenceKeys, List.range_succ, List.map_append, List.map_singleton]
    show s.insertedKeys ++ [_] = _
    conv => lhs; rw [h.keys]
    rw [h.workload]
    rfl

theorem drawn_of_workload_eq {s' : State D} (h : Drawn wl s) (hwl : s'.workload = s.workload)
    (hkeys : s'.insertedKeys = s.insertedKeys) : Drawn wl s' := by
  constructor
  · rw [hwl, hkeys]
    exact h.workload
  · rw [hkeys]
    exact h.keys

theorem drawn_loaded (wl : CoreWorkload D) (order : List Nat) :
    Drawn wl (loaded wl order) ∧ (loaded wl order).insertedKeys.length = order.length := by
  have hrun : ∀ (order : List Nat) (s : State D), Drawn wl s → Drawn wl (run doInsert s order) ∧
      (run doInsert s order).insertedKeys.length = s.insertedKeys.length + order.length := by
    intro order
    induction order with
    | nil =>
      intro s hs
      exact ⟨hs, rfl⟩
    | cons c order ih =>
      intro s hs
      obtain ⟨hdrawn, hlen⟩ := ih s.drawSequenceKey.2 (drawn_drawSequenceKey hs)
      refine ⟨hdrawn, hlen.trans ?_⟩
      rw [length_drawSequenceKey, List.length_cons]
      omega
  have hloaded := hrun order (initial wl) (drawn_initial wl)
  refine ⟨hloaded.1, hloaded.2.trans ?_⟩
  exact Nat.zero_add _

theorem loadOrder_length {numOps : Nat} {order : List Nat} (h : LoadOrder threads numOps order) :
    order.length = threads * numOps := by
  have hsum := Multiset.sum_count_eq_card (s := Finset.range threads) (m := (order : Multiset Nat))
    fun c hc => Finset.mem_range.mpr (h.client c hc)
  simp only [Multiset.coe_count, Multiset.coe_card] at hsum
  rw [← hsum, Finset.sum_congr rfl fun c hc => h.calls c (Finset.mem_range.mp hc)]
  simp

/-- The clients take turns. -/
theorem exists_loadOrder (threads numOps : Nat) : ∃ order, LoadOrder threads numOps order := by
  refine ⟨(List.replicate numOps (List.range threads)).flatten, ?_, ?_⟩
  · intro c hc
    obtain ⟨l, hl, hcl⟩ := List.mem_flatten.mp hc
    rw [List.eq_of_mem_replicate hl] at hcl
    exact List.mem_range.mp hcl
  · intro c hc
    rw [List.count_flatten, List.map_replicate, List.sum_replicate,
      List.count_eq_one_of_mem List.nodup_range (List.mem_range.mpr hc)]
    simp

/-! ### Steps of the clients -/

/-- What a step can do. -/
inductive Moved (threads : Nat) (s : State D) : Action → State D → Prop
  | stay (a : Action) : Moved threads s a s
  | insert (c : Nat) : Moved threads s (.start c .insert)
      (s.drawSequenceKey.2.setClient c (.inserting s.insertedKeys.length s.drawSequenceKey.1))
  | choose (c : Nat) (op : Operation) (hop : op ∈ s.workload.operations) (hne : op ≠ .insert) :
      Moved threads s (.start c op) (s.setClient c (.choosing op))
  | accept (c : Nat) (keyNum : UInt64) (op : Operation) (key : Str)
      (hpc : s.clients c = .choosing op) (hkey : s.workload.acceptKey keyNum = some key) :
      Moved threads s (.draw c keyNum)
        { s.setClient c (.requesting op key) with requestedKeys := s.requestedKeys ++ [key] }
  | done (c : Nat) (status : Int) (op : Operation) (key : Str)
      (hpc : s.clients c = .requesting op key) :
      Moved threads s (.finish c status) (s.setClient c .idle)
  | inserted (c : Nat) (status : Int) (index : Nat) (keyNum : UInt64)
      (hpc : s.clients c = .inserting index keyNum) :
      Moved threads s (.finish c status)
        { s.setClient c .idle with
          acknowledged := if status = kOK then s.acknowledged ++ [keyNum] else s.acknowledged }

/-- **Inversion of a step.** -/
theorem step_moved (threads : Nat) (s : State D) (a : Action) :
    Moved threads s a (step threads s a) := by
  cases a with
  | start c op =>
    cases hpc : s.clients c with
    | idle =>
      by_cases hop : c < threads ∧ op ∈ s.workload.operations
      · simp only [step, hpc, if_pos hop]
        cases op with
        | insert => exact .insert c
        | read => exact .choose c .read hop.2 nofun
        | update => exact .choose c .update hop.2 nofun
        | scan => exact .choose c .scan hop.2 nofun
        | readModifyWrite => exact .choose c .readModifyWrite hop.2 nofun
      · simp only [step, hpc, if_neg hop]
        exact .stay _
    | choosing op' => simpa only [step, hpc] using .stay _
    | requesting op' key => simpa only [step, hpc] using .stay _
    | inserting i n => simpa only [step, hpc] using .stay _
  | draw c keyNum =>
    cases hpc : s.clients c with
    | choosing op =>
      cases hkey : s.workload.acceptKey keyNum with
      | none => simpa only [step, hpc, hkey] using .stay _
      | some key => simpa only [step, hpc, hkey] using .accept c keyNum op key hpc hkey
    | idle => simpa only [step, hpc] using .stay _
    | requesting op' key => simpa only [step, hpc] using .stay _
    | inserting i n => simpa only [step, hpc] using .stay _
  | finish c status =>
    cases hpc : s.clients c with
    | requesting op key => simpa only [step, hpc] using .done c status op key hpc
    | inserting i n => simpa only [step, hpc] using .inserted c status i n hpc
    | idle => simpa only [step, hpc] using .stay _
    | choosing op => simpa only [step, hpc] using .stay _

/-- What a client at `pc` has drawn from the workload `wl`, after `base` draws of
    the load. -/
def ClientOk (wl : CoreWorkload D) (base : Nat) : ClientPc → Prop
  | .choosing op => op ∈ wl.operations ∧ op ≠ .insert
  | .inserting index keyNum => keyNum = wl.keyGenerator.counter + .ofNat index ∧ base ≤ index
  | _ => True

/-- What holds of the clients over the workload `wl`, once `base` keys have been
    loaded. -/
structure Inv (wl : CoreWorkload D) (base : Nat) (s : State D) : Prop where
  drawn : Drawn wl s
  loaded : base ≤ s.insertedKeys.length
  clients : ∀ c, ClientOk wl base (s.clients c)
  requested : ∀ key ∈ s.requestedKeys, (∃ op ∈ wl.operations, op ≠ .insert) ∧
    ∃ v ≤ wl.insertKeySequence.last, wl.buildKeyName v = key

theorem clientOk_setClient {base : Nat} (h : ∀ c, ClientOk wl base (s.clients c)) (pc : ClientPc)
    (hpc : ClientOk wl base pc) (c c' : Nat) :
    ClientOk wl base ((s.setClient c pc).clients c') := by
  show ClientOk wl base (Function.update s.clients c pc c')
  by_cases hc : c' = c
  · subst hc
    rw [Function.update_self]
    exact hpc
  · rw [Function.update_of_ne hc]
    exact h c'

/-- Loading leaves the clients between transactions. -/
theorem loaded_idle (wl : CoreWorkload D) (order : List Nat) :
    (∀ c, (loaded wl order).clients c = .idle) ∧ (loaded wl order).requestedKeys = [] ∧
      (loaded wl order).acknowledged = [] := by
  have hrun : ∀ (order : List Nat) (s : State D),
      (run doInsert s order).clients = s.clients ∧
        (run doInsert s order).requestedKeys = s.requestedKeys ∧
        (run doInsert s order).acknowledged = s.acknowledged := by
    intro order
    induction order with
    | nil => exact fun s => ⟨rfl, rfl, rfl⟩
    | cons c order ih => exact fun s => ih s.drawSequenceKey.2
  obtain ⟨hclients, hrequested, hacknowledged⟩ := hrun order (initial wl)
  exact ⟨fun c => congrFun hclients c, hrequested, hacknowledged⟩

theorem inv_loaded (wl : CoreWorkload D) (order : List Nat) :
    Inv wl order.length (loaded wl order) := by
  obtain ⟨hdrawn, hlen⟩ := drawn_loaded wl order
  obtain ⟨hclients, hrequested, -⟩ := loaded_idle wl order
  refine ⟨hdrawn, hlen.ge, fun c => ?_, fun key hkey => ?_⟩
  · rw [hclients c]
    trivial
  · rw [hrequested] at hkey
    cases hkey

theorem inv_step {base : Nat} (h : Inv wl base s) (a : Action) :
    Inv wl base (step threads s a) := by
  have hmoved := step_moved threads s a
  generalize step threads s a = s' at hmoved ⊢
  cases hmoved with
  | stay => exact h
  | insert c =>
    refine ⟨drawn_of_workload_eq (drawn_drawSequenceKey h.drawn) rfl rfl, ?_,
      clientOk_setClient h.clients (.inserting _ _)
        ⟨drawSequenceKey_num h.drawn, h.loaded⟩ c, h.requested⟩
    show base ≤ s.drawSequenceKey.2.insertedKeys.length
    rw [length_drawSequenceKey]
    exact Nat.le_succ_of_le h.loaded
  | choose c op hop hne =>
    rw [h.drawn.workload] at hop
    exact ⟨drawn_of_workload_eq h.drawn rfl rfl, h.loaded,
      clientOk_setClient h.clients (.choosing op) ⟨hop, hne⟩ c, h.requested⟩
  | accept c keyNum op key hpc hkey =>
    refine ⟨drawn_of_workload_eq h.drawn rfl rfl, h.loaded,
      clientOk_setClient h.clients (.requesting op key) trivial c, fun k hk => ?_⟩
    rcases List.mem_append.mp hk with hk | hk
    · exact h.requested k hk
    · obtain rfl := List.mem_singleton.mp hk
      have hop := h.clients c
      rw [hpc] at hop
      rw [h.drawn.workload] at hkey
      exact ⟨⟨op, hop⟩, keyNum, CoreWorkload.acceptKey_eq_some.mp hkey⟩
  | done c status op key hpc =>
    exact ⟨drawn_of_workload_eq h.drawn rfl rfl, h.loaded,
      clientOk_setClient h.clients .idle trivial c, h.requested⟩
  | inserted c status index keyNum hpc =>
    exact ⟨drawn_of_workload_eq h.drawn rfl rfl, h.loaded,
      clientOk_setClient h.clients .idle trivial c, h.requested⟩

theorem inv_run (threads : Nat) (wl : CoreWorkload D) (order : List Nat) (actions : List Action) :
    Throughout (step threads) (Inv wl order.length) (loaded wl order) actions :=
  throughout_of_allSteps (fun _ a h (_ : True) => inv_step h a) (inv_loaded wl order)
    (allSteps_const.mpr fun _ _ => trivial)

/-! ### Three records -/

/-- A proportion is positive when it has a digit other than 0. -/
def digitArith : DoubleArith where
  Double := Bool
  stod s := .returned (s.any fun b => 49 ≤ b && b ≤ 57)
  isPositive := id
  newKeys _ _ := 0

/-- `recordcount=3`, `insertproportion=0.05` and the defaults. -/
def threeRecords : Properties := fun key =>
  if key = recordCountProperty then some (str "3")
  else if key = insertProportionProperty then some (str "0.05")
  else none

def threeRecordsWorkload : CoreWorkload digitArith where
  tableName := str "usertable"
  fieldCount := 10
  readAllFields := true
  writeAllFields := false
  fieldLenGenerator := .constant 100
  keyGenerator := ⟨0⟩
  opChooser := [(.read, true), (.update, true), (.insert, true)]
  keyChooser := .uniform 0 2
  fieldChooser := .uniform 0 9
  scanLenChooser := .uniform 1 1000
  insertKeySequence := ⟨3⟩
  orderedInserts := false
  recordCount := 3

theorem configured_threeRecords :
    Configured digitArith threeRecords threeRecordsWorkload 3 0 := ⟨rfl, rfl, rfl⟩

/-! ### Requests and the load -/

theorem ofInt_natCast (n : Nat) : UInt64.ofInt n = .ofNat n := by
  apply UInt64.toNat_inj.mp
  rw [UInt64.ofInt, UInt64.toNat_ofNat', UInt64.toNat_ofNat']
  omega

theorem mem_sequenceKeys {n : Nat} {key : Str} : key ∈ sequenceKeys wl n ↔
    ∃ i < n, wl.buildKeyName (wl.keyGenerator.counter + .ofNat i) = key := by
  simp [sequenceKeys]

/-- A transaction of client 0 that is given the number `v` at its first draw. -/
theorem run_request (wl : CoreWorkload D) (order : List Nat) (hthreads : 0 < threads)
    {op : Operation} (hop : op ∈ wl.operations) (hne : op ≠ .insert) {v : UInt64}
    (hv : v ≤ wl.insertKeySequence.last) :
    (run (step threads) (loaded wl order) [.start 0 op, .draw 0 v]).requestedKeys =
        [wl.buildKeyName v] ∧
      (run (step threads) (loaded wl order) [.start 0 op, .draw 0 v]).insertedKeys =
        sequenceKeys wl order.length := by
  obtain ⟨hdrawn, hlen⟩ := drawn_loaded wl order
  obtain ⟨hclients, hrequested, -⟩ := loaded_idle wl order
  have hstart : step threads (loaded wl order) (.start 0 op) =
      (loaded wl order).setClient 0 (.choosing op) := by
    have hguard : 0 < threads ∧ op ∈ (loaded wl order).workload.operations := by
      rw [hdrawn.workload]
      exact ⟨hthreads, hop⟩
    simp only [step, hclients 0, if_pos hguard]
    cases op with
    | insert => exact absurd rfl hne
    | _ => rfl
  have hchoosing : ((loaded wl order).setClient 0 (.choosing op)).clients 0 = .choosing op := by
    simp [setClient]
  have haccept : ((loaded wl order).setClient 0 (.choosing op)).workload.acceptKey v =
      some (wl.buildKeyName v) := by
    show (loaded wl order).workload.acceptKey v = _
    rw [hdrawn.workload]
    exact CoreWorkload.acceptKey_of_le hv
  rw [run_cons, run_cons, run_nil, hstart]
  simp only [step, hchoosing, haccept]
  constructor
  · show (loaded wl order).requestedKeys ++ _ = _
    rw [hrequested, List.nil_append]
  · show (loaded wl order).insertedKeys = _
    rw [hdrawn.keys, hlen]

/-- When every number of the request range was drawn while loading, only inserted
    keys are requested. -/
theorem onlyInsertedKeys_of_covered {base : Nat} (hs : Inv wl base s)
    (hcovered : ∀ v ≤ wl.insertKeySequence.last,
      ∃ i < base, wl.keyGenerator.counter + .ofNat i = v) : OnlyInsertedKeys s := by
  intro key hkey
  obtain ⟨-, v, hv, rfl⟩ := hs.requested key hkey
  obtain ⟨i, hi, rfl⟩ := hcovered v hv
  rw [hs.drawn.keys, mem_sequenceKeys]
  exact ⟨i, Nat.lt_of_lt_of_le hi hs.loaded, rfl⟩

/-- A number of the range whose key the load has not used can be requested. -/
theorem not_onlyInsertedKeys_of_fresh (wl : CoreWorkload D) (order : List Nat)
    (hthreads : 0 < threads) {op : Operation} (hop : op ∈ wl.operations) (hne : op ≠ .insert)
    {v : UInt64} (hv : v ≤ wl.insertKeySequence.last)
    (hfresh : ∀ i < order.length,
      wl.buildKeyName (wl.keyGenerator.counter + .ofNat i) ≠ wl.buildKeyName v) :
    ¬Throughout (step threads) OnlyInsertedKeys (loaded wl order) [.start 0 op, .draw 0 v] := by
  intro hall
  obtain ⟨hrequested, hinserted⟩ := run_request wl order hthreads hop hne hv
  have hmem := hall.last (wl.buildKeyName v) (by rw [hrequested]; exact List.mem_singleton_self _)
  rw [hinserted] at hmem
  obtain ⟨i, hi, hkey⟩ := mem_sequenceKeys.mp hmem
  exact hfresh i hi hkey

theorem le_last_ofNat_iff {n : Nat} (hpos : 0 < n) (hn : n < 2 ^ 64) (v : UInt64) :
    v ≤ (CounterGenerator.mk (.ofNat n)).last ↔ v.toNat < n := by
  rw [CounterGenerator.last, UInt64.le_iff_toNat_le, UInt64.toNat_sub, UInt64.toNat_ofNat',
    UInt64.toNat_one]
  omega

/-- The load makes as many inserts as the clients share evenly. -/
theorem loadOrder_length_div {r t : Nat} {order : List Nat}
    (horder : LoadOrder t (loadOps r t) order) : order.length = t * (r / t) := by
  rw [loadOrder_length horder, loadOps, ← Int.ofNat_tdiv, Int.toNat_natCast]

/-- Some number of the request range is not among those of the load. -/
theorem exists_not_loaded {r t start : Nat} (ht : 1 ≤ t) (hrt : t ≤ r)
    (h : ¬(start = 0 ∧ t ∣ r)) : ∃ v < r, ∀ i < t * (r / t), start + i ≠ v := by
  by_cases hstart : start = 0
  · have hdvd : ¬t ∣ r := fun hd => h ⟨hstart, hd⟩
    have hlt : t * (r / t) < r := by
      have hmod := Nat.div_add_mod r t
      have hne : r % t ≠ 0 := fun h0 => hdvd (Nat.dvd_of_mod_eq_zero h0)
      omega
    exact ⟨r - 1, by omega, fun i hi => by omega⟩
  · exact ⟨0, by omega, fun i _ => by omega⟩

section Numbers

variable {r t a : Nat} (hlast : ∀ v : UInt64, v ≤ wl.insertKeySequence.last ↔ v.toNat < r)
  (hnum : ∀ i, (wl.keyGenerator.counter + .ofNat i : UInt64) = .ofNat (a + i))
include hlast hnum

/-- A load from 0 of the whole range covers it. -/
theorem onlyInsertedKeys_of_dvd (ha : a = 0) (hdvd : t ∣ r) {order : List Nat}
    (horder : LoadOrder t (loadOps r t) order) {s : State D} (hs : Inv wl order.length s) :
    OnlyInsertedKeys s := by
  apply onlyInsertedKeys_of_covered hs
  intro v hv
  refine ⟨v.toNat, ?_, ?_⟩
  · rw [loadOrder_length_div horder, Nat.mul_div_cancel' hdvd]
    exact (hlast v).mp hv
  · rw [hnum, ha, Nat.zero_add, UInt64.ofNat_toNat]

/-- Any other load leaves a number of the range out, and a transaction can draw it. -/
theorem exists_not_onlyInsertedKeys (ht : 1 ≤ t) (hrt : t ≤ r) (hr : r < 2 ^ 31) (ha : a < 2 ^ 31)
    (hload : ¬(a = 0 ∧ t ∣ r)) {op : Operation} (hop : op ∈ wl.operations) (hne : op ≠ .insert) :
    ∃ order, LoadOrder t (loadOps r t) order ∧
      ∃ actions, ¬Throughout (step t) OnlyInsertedKeys (loaded wl order) actions := by
  obtain ⟨v, hv, hfresh⟩ := exists_not_loaded ht hrt hload
  obtain ⟨order, horder⟩ := exists_loadOrder t (loadOps r t)
  have hvnum : (UInt64.ofNat v).toNat = v := by
    rw [UInt64.toNat_ofNat']
    omega
  refine ⟨order, horder, _, not_onlyInsertedKeys_of_fresh wl order ht hop hne
    ((hlast (.ofNat v)).mpr (by omega)) ?_⟩
  intro i hi hkey
  rw [loadOrder_length_div horder] at hi
  -- the load's number and `v` are both below `2^32`, so equal keys mean equal numbers
  have hlt : i < r := Nat.lt_of_lt_of_le hi (Nat.mul_div_le r t)
  have hinum : (UInt64.ofNat (a + i)).toNat = a + i := by
    rw [UInt64.toNat_ofNat']
    omega
  rw [hnum] at hkey
  have heq := congrArg UInt64.toNat (CoreWorkload.buildKeyName_inj (by omega) (by omega) hkey)
  rw [hinum, hvnum] at heq
  exact hfresh i hi heq

end Numbers

/-- **Transactions address loaded records only**, whatever numbers the key chooser
    draws, exactly when the load starts at 0 and is not cut short by the division
    among the clients, or when the workload has no transaction that draws a key to
    request.  The draws are arbitrary numbers: a chooser that cannot give each of
    them (`KeyChoosers.Drawable` has those it can) may keep to loaded records also
    where the condition fails. -/
theorem onlyInsertedKeys_iff {p : Properties} {recordCount insertStart : Int}
    (h : Configured D p wl recordCount insertStart) (threadCount : Int)
    (hthreads : 1 ≤ threadCount) (hrecords : threadCount ≤ recordCount)
    (hstart : 0 ≤ insertStart) :
    (∀ order, LoadOrder threadCount.toNat (loadOps recordCount threadCount) order →
      ∀ actions, Throughout (step threadCount.toNat) OnlyInsertedKeys (loaded wl order) actions) ↔
    (insertStart = 0 ∧ threadCount ∣ recordCount) ∨ ∀ op ∈ wl.operations, op = .insert := by
  obtain ⟨hcounter, hsequence⟩ := init_spec h
  have hr := (stoi_range h.recordCount).2
  have ha := (stoi_range h.insertStart).2
  lift recordCount to ℕ using by omega with r
  lift threadCount to ℕ using by omega with t
  lift insertStart to ℕ using hstart with a
  rw [ofInt_natCast] at hcounter hsequence
  have hlast : ∀ v : UInt64, v ≤ wl.insertKeySequence.last ↔ v.toNat < r := by
    rw [hsequence]
    exact le_last_ofNat_iff (by omega) (by omega)
  have hnum : ∀ i, (wl.keyGenerator.counter + .ofNat i : UInt64) = .ofNat (a + i) := by
    intro i
    rw [hcounter, UInt64.ofNat_add]
  rw [Int.toNat_natCast, Int.natCast_dvd_natCast, Int.natCast_eq_zero]
  constructor
  · intro hall
    by_contra hcond
    obtain ⟨hload, hop⟩ := not_or.mp hcond
    push Not at hop
    obtain ⟨op, hop, hne⟩ := hop
    obtain ⟨order, horder, actions, hnot⟩ := exists_not_onlyInsertedKeys hlast hnum (by omega)
      (by omega) (by omega) (by omega) hload hop hne
    exact hnot (hall order horder actions)
  · intro hcond order horder actions
    refine (inv_run t wl order actions).imp fun s hs => ?_
    rcases hcond with ⟨ha0, hdvd⟩ | hinsert
    · exact onlyInsertedKeys_of_dvd hlast hnum ha0 hdvd horder hs
    · intro key hkey
      obtain ⟨⟨op, hop, hne⟩, -⟩ := hs.requested key hkey
      exact absurd (hinsert op hop) hne

theorem onlyInsertedKeys_iff_threeClients :
    (∀ order, LoadOrder 3 1 order → ∀ actions,
      Throughout (step 3) OnlyInsertedKeys (loaded threeRecordsWorkload order) actions) ↔
    ((0 : Int) = 0 ∧ (3 : Int) ∣ 3) ∨ ∀ op ∈ threeRecordsWorkload.operations, op = .insert :=
  onlyInsertedKeys_iff configured_threeRecords 3 (by decide) (by decide)
    (by decide)

/-- **A key that was never inserted**: two clients load one record each of three,
    and the chooser draws the last number of the request range. -/
theorem not_onlyInsertedKeys_twoClients :
    ¬∀ order, LoadOrder 2 (loadOps 3 2) order → ∀ actions,
      Throughout (step 2) OnlyInsertedKeys (loaded threeRecordsWorkload order) actions := by
  intro hall
  have horder : LoadOrder 2 (loadOps 3 2) [0, 1] := ⟨by decide, by decide⟩
  have hlast := (hall [0, 1] horder [.start 0 .read, .draw 0 2]).last
  revert hlast
  rw [OnlyInsertedKeys]
  decide +kernel

/-! ### Requests and later inserts -/

/-- A number in the range is also one that the latest generator can give. -/
theorem exists_rank {last keyNum : UInt64} (h : keyNum ≤ last) :
    ∃ rank ≤ last, last - rank = keyNum := by
  have hle := UInt64.le_iff_toNat_le.mp h
  have hlast := UInt64.toNat_lt last
  refine ⟨last - keyNum, ?_, ?_⟩
  · rw [UInt64.le_iff_toNat_le, UInt64.toNat_sub]
    omega
  · apply UInt64.toNat_inj.mp
    rw [UInt64.toNat_sub, UInt64.toNat_sub]
    omega

theorem follows_iff_le (h : Drawn wl s) :
    Follows s ↔ ∀ keyNum ∈ s.acknowledged, keyNum ≤ wl.insertKeySequence.last := by
  have hlast : s.workload.insertKeySequence.last = wl.insertKeySequence.last := by
    rw [h.workload]
    rfl
  constructor
  · intro hfollows keyNum hmem
    rw [← hlast]
    exact (hfollows keyNum hmem).1
  · intro hle keyNum hmem
    have hin : keyNum ≤ s.workload.insertKeySequence.last := by
      rw [hlast]
      exact hle keyNum hmem
    exact ⟨hin, CoreWorkload.acceptKey_of_le hin, exists_rank hin⟩

/-- What a step adds to the acknowledged numbers. -/
theorem step_acknowledged (threads : Nat) (s : State D) (a : Action) :
    (step threads s a).acknowledged = s.acknowledged ∨
      ∃ c index keyNum, a = .finish c kOK ∧ s.clients c = .inserting index keyNum ∧
        (step threads s a).acknowledged = s.acknowledged ++ [keyNum] := by
  have hmoved := step_moved threads s a
  generalize step threads s a = s' at hmoved ⊢
  cases hmoved with
  | inserted c status index keyNum hpc =>
    by_cases hstatus : status = kOK
    · subst hstatus
      refine Or.inr ⟨c, index, keyNum, rfl, hpc, ?_⟩
      simp
    · refine Or.inl ?_
      simp [hstatus]
  | _ => exact Or.inl rfl

theorem step_acknowledged_ok {c index : Nat} {keyNum : UInt64}
    (hpc : s.clients c = .inserting index keyNum) :
    (step threads s (.finish c kOK)).acknowledged = s.acknowledged ++ [keyNum] := by
  simp [step, hpc]

/-- The number of a draw against the last number of the request range. -/
theorem le_last_iff {recordCount : Int} (hrange : -2 ^ 31 ≤ recordCount ∧ recordCount < 2 ^ 31)
    {index : Nat} (hindex : recordCount ≤ index) :
    UInt64.ofNat index ≤ UInt64.ofInt recordCount - 1 ↔ InRange recordCount index := by
  rw [UInt64.le_iff_toNat_le, UInt64.toNat_sub, UInt64.ofInt, UInt64.toNat_ofNat',
    UInt64.toNat_ofNat', UInt64.toNat_one, InRange]
  split
  · omega
  · omega

section RequestRange

variable {p : Properties} {recordCount : Int} (h : Configured D p wl recordCount 0) {base : Nat}
  (hbase : recordCount ≤ base) (hs : Inv wl base s)
include h hbase hs

/-- A transaction insert's number is in the request range when its draw is. -/
theorem inserting_le_last_iff {c index : Nat} {keyNum : UInt64}
    (hpc : s.clients c = .inserting index keyNum) :
    keyNum ≤ wl.insertKeySequence.last ↔ InRange recordCount index := by
  obtain ⟨hcounter, hsequence⟩ := init_spec h
  have hclient := hs.clients c
  rw [hpc] at hclient
  obtain ⟨hkeyNum, hindex⟩ := hclient
  have hnum : wl.keyGenerator.counter + .ofNat index = .ofNat index := by
    rw [hcounter]
    exact UInt64.zero_add _
  rw [hkeyNum, hnum, hsequence]
  exact le_last_iff (stoi_range h.recordCount) (by omega)

/-- The range goes on following the inserts when the step acknowledges none outside. -/
theorem follows_step_iff (hfollows : Follows s) (a : Action) :
    Follows (step threads s a) ↔ AcksInRange recordCount s a := by
  have hle := (follows_iff_le hs.drawn).mp hfollows
  rw [follows_iff_le (inv_step hs a).drawn]
  constructor
  · intro hnext
    cases a with
    | start c op => trivial
    | draw c keyNum => trivial
    | finish c status =>
      intro hstatus index keyNum hpc
      subst hstatus
      refine (inserting_le_last_iff h hbase hs hpc).mp (hnext keyNum ?_)
      rw [step_acknowledged_ok hpc]
      exact List.mem_append_right _ (List.mem_singleton_self _)
  · intro hacks
    rcases step_acknowledged threads s a with hsame | ⟨c, index, keyNum, rfl, hpc, hnew⟩
    · rw [hsame]
      exact hle
    · rw [hnew]
      intro k hk
      rcases List.mem_append.mp hk with hk | hk
      · exact hle k hk
      · obtain rfl := List.mem_singleton.mp hk
        exact (inserting_le_last_iff h hbase hs hpc).mpr (hacks rfl index k hpc)

end RequestRange

/-- **The request range follows the inserts** exactly when no transaction insert
    returns `kOK` before the shared counter has wrapped around.  The counter that
    bounds the range is not the one that inserts advance: it stays at
    `recordCount`. -/
theorem follows_iff {p : Properties} {recordCount : Int} (h : Configured D p wl recordCount 0)
    (threadCount : Int) (hthreads : 1 ≤ threadCount) (hdvd : threadCount ∣ recordCount)
    {order : List Nat}
    (horder : LoadOrder threadCount.toNat (loadOps recordCount threadCount) order)
    (actions : List Action) :
    Throughout (step threadCount.toNat) Follows (loaded wl order) actions ↔
      AllSteps (step threadCount.toNat) (AcksInRange recordCount) (loaded wl order) actions := by
  have hbase : recordCount ≤ order.length := by
    obtain ⟨n, rfl⟩ := hdvd
    rw [loadOrder_length horder, loadOps, Int.mul_tdiv_cancel_left _ (by omega), Nat.cast_mul,
      Int.toNat_of_nonneg (by omega)]
    exact Int.mul_le_mul_of_nonneg_left (Int.self_le_toNat n) (by omega)
  have hinit : Follows (loaded wl order) := by
    rw [follows_iff_le (inv_loaded wl order).drawn, (loaded_idle wl order).2.2]
    exact List.forall_mem_nil _
  exact throughout_iff_allSteps (fun s a hs (_ : True) => inv_step hs a)
    (fun s a hs hfollows _ => follows_step_iff h hbase hs hfollows a)
    (inv_loaded wl order) hinit (allSteps_const.mpr fun _ _ => trivial)

/-- An insert that the store refuses. -/
theorem follows_iff_refused :
    Throughout (step 3) Follows (loaded threeRecordsWorkload [0, 1, 2])
      [.start 0 .insert, .finish 0 2] :=
  (follows_iff configured_threeRecords 3 (by decide) (by decide) ⟨by decide, by decide⟩
    [.start 0 .insert, .finish 0 2]).mpr ⟨trivial, fun hok => absurd hok (by decide), trivial⟩

/-- **The range does not follow**: after a load of three records a transaction
    inserts number 3, and the last number of the range is still 2. -/
theorem not_follows_oneInsert :
    ¬Throughout (step 3) Follows (loaded threeRecordsWorkload [0, 1, 2])
      [.start 0 .insert, .finish 0 kOK] := by
  intro hrun
  have hin : (3 : UInt64) ≤ 2 := (hrun.last 3 (by decide +kernel)).1
  exact absurd hin (by decide)

/-! ### Inserts never share a key -/

/-- **Fewer than `2^32` draws from 0 give distinct keys.** -/
theorem sequenceKeys_nodup (hcounter : wl.keyGenerator.counter = 0) {n : Nat} (hn : n < 2 ^ 32) :
    (sequenceKeys wl n).Nodup := by
  refine List.Nodup.map_on (fun i hi j hj heq => ?_) List.nodup_range
  have hnum : ∀ i < n, (wl.keyGenerator.counter + .ofNat i : UInt64).toNat = i := by
    intro i hi
    rw [hcounter, UInt64.zero_add, UInt64.toNat_ofNat']
    omega
  have hlti : i < n := List.mem_range.mp hi
  have hltj : j < n := List.mem_range.mp hj
  have hinum := hnum i hlti
  have hjnum := hnum j hltj
  have hsame := congrArg UInt64.toNat (CoreWorkload.buildKeyName_inj (by omega) (by omega) heq)
  rwa [hinum, hjnum] at hsame

/-- **Inserted keys never collide**: the hash tells numbers below `2^32` apart, so
    do the keys built from them in both insert orders, and so no two of fewer than
    `2^32` inserts use the same key, whichever clients make them and whether they
    load or run transactions. -/
theorem insertedKeys_distinct {p : Properties} {recordCount : Int}
    (h : Configured D p wl recordCount 0) (threads : Nat) (order : List Nat)
    (actions : List Action)
    (hdraws : (run (step threads) (loaded wl order) actions).insertedKeys.length < 2 ^ 32) :
    (∀ a b : UInt64, a.toNat < 2 ^ 32 → b.toNat < 2 ^ 32 → a ≠ b →
      fnvHash64 a ≠ fnvHash64 b ∧
        ∀ wl' : CoreWorkload D, wl'.buildKeyName a ≠ wl'.buildKeyName b) ∧
    (run (step threads) (loaded wl order) actions).insertedKeys.Nodup := by
  constructor
  · intro a b ha hb hne
    exact ⟨fun heq => hne (fnvHash64_inj ha hb heq),
      fun _ heq => hne (CoreWorkload.buildKeyName_inj ha hb heq)⟩
  · have hdrawn := (inv_run threads wl order actions).last.drawn
    rw [hdrawn.keys]
    exact sequenceKeys_nodup (by rw [(init_spec h).1]; rfl) hdraws

theorem insertedKeys_distinct_threeClients :
    (∀ a b : UInt64, a.toNat < 2 ^ 32 → b.toNat < 2 ^ 32 → a ≠ b →
      fnvHash64 a ≠ fnvHash64 b ∧
        ∀ wl' : CoreWorkload digitArith, wl'.buildKeyName a ≠ wl'.buildKeyName b) ∧
    (run (step 3) (loaded threeRecordsWorkload [2, 0, 1])
      [.start 1 .insert, .start 0 .insert]).insertedKeys.Nodup :=
  insertedKeys_distinct configured_threeRecords 3 [2, 0, 1] [.start 1 .insert, .start 0 .insert]
    (by decide +kernel)

end NvrecYcsb.TransactionKeys
