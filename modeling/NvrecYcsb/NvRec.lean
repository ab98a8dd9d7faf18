/-
  NvrecYcsb/NvRec.lean
  ====================
  **The engine with asynchronous flushes** (`recovery/nvrec_engine.{h,cc}`).

  `PersistRaw` stores a tuple in the list of the current pool inside a
  transaction.  When the transaction aborts, the engine waits for the flush it
  started before, hands its pool to a new flush thread, opens the next pool and
  tries again.  A flush thread walks the list of its pool, appends every tuple to
  the disk log, and unlinks the file of the pool.

  The client and the flush threads are step machines over one state.  A `Tick`
  names the one that moves and says how the device operations of its step turn
  out; a step that has to wait leaves the state as it is, so a list of ticks is
  an interleaving and every interleaving is a list of ticks.

  Of libpmemobj: `transaction::run` commits what its body wrote or, when it throws,
  leaves no trace of it, the allocations included (`UndoLog` has the parts of that);
  a pool that is opened again holds what was committed in it; a pool file that is
  unlinked stays usable while it is open.
-/
import NvrecYcsb.RecoveryInterface
import NvrecYcsb.ListPool
import NvrecYcsb.Runs

namespace NvrecYcsb.NvRec

open CppRuntime RecoveryDefs RecoveryInterface ListPool Runs

/-- `kPoolPath`, also the initial value of `pool_path_`. -/
def kPoolPath : Str := lit ['/', 'm', 'n', 't', '/', 'm', 'e', 'm', '/', 'p', 'm', 'e', 'm']

/-- The identity of a pool, kept while its file exists and while it is open. -/
abbrev PoolId := Nat

/-- A pool: its root object, and whether this process has it open. -/
structure Pool where
  list : PersistentList := {}
  isOpen : Bool := true

/-- Where a flush thread is in `FlushToDisk`. -/
inductive FlushPc where
  | starting                                   -- before the head is read and the disk log opened
  | reading (current : Option Ptr)             -- at the test of the loop
  | writing (current : Ptr) (currentTuple : Tuple)
  | syncing
  | closing
  | unlinking
  | finished (result : Outcome RecoveryStatus)

/-- A flush thread: the arguments it was started with, and where it is. -/
structure FlushThread where
  poolPath : Str
  pool : PoolId
  pc : FlushPc

/-- Where the client is in `PersistRaw`. -/
inductive ClientPc where
  | idle (result : Outcome RecoveryStatus) -- between calls, with the last result
  | transacting (value : Tuple)
  | waiting (value : Tuple)                -- if (flush_result_.valid()) flush_result_.get()
  | launching (value : Tuple)              -- std::async
  | opening (value : Tuple)                -- MakePersistentListPool(NextPoolPath())

/-- The members of `NVRecEngine`, the pools and their files, the disk log, the
    flush threads in the order they were started, and where the client is. -/
structure NVRecEngine where
  pools : PoolId → Pool
  created : Nat
  files : List (Str × PoolId)
  diskLog : List Byte
  pool : PoolId
  lookupTable : UInt64 → Option Ptr
  poolCounter : Nat
  flushes : Nat → FlushThread
  launched : Nat
  flushResult : Option Nat
  client : ClientPc

/-- How the operations of a client step turn out. -/
structure ClientEnv where
  commits : Bool := true -- the transaction commits
  opens : Bool := true   -- the pool is opened or created

/-- How the operations of a flush step turn out. -/
structure FlushEnv where
  diskOpen : Bool := true
  diskWrite : WriteOutcome := .complete
  unlinks : Bool := true

namespace NVRecEngine

/-- The name of pool number `n`: the counter is appended from 1 on. -/
def poolPath (n : Nat) : Str := if n = 0 then kPoolPath else kPoolPath ++ stdToString n

/-! ### Pools -/

/-- `MakePersistentListPool`: open the pool when its file exists, else create it. -/
def makePersistentListPool (env : ClientEnv) (s : NVRecEngine) (path : Str) :
    Option NVRecEngine :=
  if env.opens then
    match s.files.lookup path with
    | some id =>
      some { s with
        pools := Function.update s.pools id { s.pools id with isOpen := true }
        pool := id }
    | none =>
      some { s with
        pools := Function.update s.pools s.created {}
        created := s.created + 1
        files := s.files ++ [(path, s.created)]
        pool := s.created }
  else none

def setList (s : NVRecEngine) (list : PersistentList) : NVRecEngine :=
  { s with pools := Function.update s.pools s.pool { s.pools s.pool with list := list } }

/-! ### The client -/

/-- The transaction of `PersistRaw`.  One that aborts leaves no trace. -/
def transact (env : ClientEnv) (s : NVRecEngine) (value : Tuple) : NVRecEngine :=
  if (s.pools s.pool).isOpen = false then { s with client := .idle .undefined }
  else if env.commits then
    match s.lookupTable value.key with
    | none =>
      let (ptr, list) := (s.pools s.pool).list.insert value
      { s.setList list with
        lookupTable := Function.update s.lookupTable value.key (some ptr)
        client := .idle (.returned .kSuccess) }
    | some ptr =>
      { s.setList ((s.pools s.pool).list.setObj ptr value) with
        client := .idle (.returned .kSuccess) }
  else { s with client := .waiting value }

/-- `flush_result_.get()` waits for the thread and rethrows what it threw. -/
def awaitFlush (s : NVRecEngine) (value : Tuple) : NVRecEngine :=
  match s.flushResult with
  | none => { s with client := .launching value }
  | some i =>
    match (s.flushes i).pc with
    | .finished (.returned _) => { s with flushResult := none, client := .launching value }
    | .finished (.threw e) => { s with flushResult := none, client := .idle (.threw e) }
    | .finished _ => { s with flushResult := none, client := .idle .undefined }
    | _ => s

/-- `std::async` with the current path, the pool and the lookup table.  The handle
    `pool_` still names the pool after it was moved; the table is left empty. -/
def launchFlush (s : NVRecEngine) (value : Tuple) : NVRecEngine :=
  { s with
    flushes := Function.update s.flushes s.launched ⟨poolPath s.poolCounter, s.pool, .starting⟩
    launched := s.launched + 1
    flushResult := some s.launched
    lookupTable := fun _ => none
    client := .opening value }

/-- Open the next pool and start again. -/
def openNextPool (env : ClientEnv) (s : NVRecEngine) (value : Tuple) : NVRecEngine :=
  let s := { s with poolCounter := s.poolCounter + 1 }
  match s.makePersistentListPool env (poolPath s.poolCounter) with
  | some s => { s with lookupTable := fun _ => none, client := .transacting value }
  | none => { s with client := .idle (.threw .poolError) }

/-- One step of `PersistRaw`. -/
def clientStep (env : ClientEnv) (s : NVRecEngine) : NVRecEngine :=
  match s.client with
  | .idle _ => s
  | .transacting value => s.transact env value
  | .waiting value => s.awaitFlush value
  | .launching value => s.launchFlush value
  | .opening value => s.openNextPool env value

/-! ### The flush threads -/

def setPc (s : NVRecEngine) (i : Nat) (pc : FlushPc) : NVRecEngine :=
  { s with flushes := Function.update s.flushes i { s.flushes i with pc := pc } }

/-- The node that the thread reads, while its pool is mapped. -/
def flushNode (s : NVRecEngine) (i : Nat) (p : Ptr) : Option ListNode :=
  if (s.pools (s.flushes i).pool).isOpen then (s.pools (s.flushes i).pool).list.heap[p]? else none

/-- One step of `FlushToDisk`, the thread taken from the state.  Where the thread
    uses a pool that another thread has closed, nothing is defined.  `OSFile::Sync`
    ends without the return its type asks for: the step that calls it is modelled as
    coming back, as it does in a build that does not optimise, and its value is
    not used. -/
def flushThreadStep (env : FlushEnv) (s : NVRecEngine) (i : Nat) : NVRecEngine :=
  match (s.flushes i).pc with
  | .starting =>
    if (s.pools (s.flushes i).pool).isOpen = false then s.setPc i (.finished .undefined)
    else if env.diskOpen then s.setPc i (.reading (s.pools (s.flushes i).pool).list.head)
    else s.setPc i (.finished (.threw (.runtimeError "File Open Failed")))
  | .reading none => s.setPc i .syncing
  | .reading (some p) =>
    match s.flushNode i p with
    | some n => s.setPc i (.writing p n.obj)
    | none => s.setPc i (.finished .undefined)
  | .writing p currentTuple =>
    let (count, diskLog) := osWrite env.diskWrite currentTuple.bytes s.diskLog
    let s := { s with diskLog := diskLog }
    if count = sizeofTuple then
      match s.flushNode i p with
      | some n => s.setPc i (.reading n.next)
      | none => s.setPc i (.finished .undefined)
    else s.setPc i (.finished (.threw (.runtimeError "Write operation failed")))
  | .syncing => s.setPc i .closing
  | .closing =>
    let id := (s.flushes i).pool
    if (s.pools id).isOpen = false then s.setPc i (.finished .undefined)
    else
      { s with pools := Function.update s.pools id { s.pools id with isOpen := false } }.setPc i
        .unlinking
  | .unlinking =>
    if env.unlinks = true ∧ (s.files.lookup (s.flushes i).poolPath).isSome then
      { s with files := s.files.filter fun f => f.1 ≠ (s.flushes i).poolPath }.setPc i
        (.finished (.returned .kSuccess))
    else s.setPc i (.finished (.threw (.runtimeError "Cannot delete pool file: ")))
  | .finished _ => s

/-- A thread that has not been started does not move. -/
def flushStep (env : FlushEnv) (s : NVRecEngine) (i : Nat) : NVRecEngine :=
  if i < s.launched then s.flushThreadStep env i else s

/-! ### Construction and destruction -/

/-- The constructor over what is on the devices; `flushes` are threads that ended. -/
def construct (s : NVRecEngine) : NVRecEngine :=
  let s := { s with
    lookupTable := fun _ => none
    poolCounter := 0
    flushResult := none
    client := .idle (.returned .kSuccess) }
  (s.makePersistentListPool {} kPoolPath).getD s

/-- A new engine where no pool file and no disk log exist. -/
def fresh : NVRecEngine :=
  construct
    { pools := fun _ => {}, created := 0, files := [], diskLog := [], pool := 0
      lookupTable := fun _ => none, poolCounter := 0
      flushes := fun _ => ⟨[], 0, .starting⟩, launched := 0, flushResult := none
      client := .idle (.returned .kSuccess) }

/-- `pool_.close()` of the destructor. -/
def closePool (s : NVRecEngine) : NVRecEngine :=
  { s with pools := Function.update s.pools s.pool { s.pools s.pool with isOpen := false } }

end NVRecEngine

open NVRecEngine

/-! ### The machine -/

/-- One step of the client or of flush thread `i`. -/
inductive Tick where
  | client (env : ClientEnv)
  | flush (i : Nat) (env : FlushEnv)

def tick (s : NVRecEngine) : Tick → NVRecEngine
  | .client env => s.clientStep env
  | .flush i env => s.flushStep env i

def FlushPc.isFinished : FlushPc → Bool
  | .finished _ => true
  | _ => false

def ClientPc.isIdle : ClientPc → Bool
  | .idle _ => true
  | _ => false

def ClientPc.isOpening : ClientPc → Bool
  | .opening _ => true
  | _ => false

def Quiet (s : NVRecEngine) : Prop :=
  s.client.isIdle = true ∧ ∀ i < s.launched, (s.flushes i).pc.isFinished = true

instance (s : NVRecEngine) : Decidable (Quiet s) := by unfold Quiet; infer_instance

/-- What can happen to an engine: a call of `PersistRaw`, a step, a clean restart. -/
inductive Action where
  | call (value : Tuple)
  | tick (t : Tick)
  | restart

/-- A call starts when no other is running; a restart needs a quiet engine.  Its
    destructor closes the pool, which is undefined when a flush has closed it. -/
def step (s : NVRecEngine) : Action → NVRecEngine
  | .call value => if s.client.isIdle then { s with client := .transacting value } else s
  | .tick t => tick s t
  | .restart =>
    if Quiet s then
      if (s.pools s.pool).isOpen = false then { s with client := .idle .undefined }
      else s.closePool.construct
    else s

/-- Every device operation succeeds; transactions may abort. -/
def Tick.Ok : Tick → Prop
  | .client env => env.opens = true
  | .flush _ env => env.diskOpen = true ∧ env.diskWrite = .complete ∧ env.unlinks = true

def Action.Ok : Action → Prop
  | .tick t => t.Ok
  | _ => True

instance : DecidablePred Action.Ok
  | .call _ => isTrue trivial
  | .tick (.client env) => inferInstanceAs (Decidable (env.opens = true))
  | .tick (.flush _ env) => inferInstanceAs (Decidable (env.diskOpen = true ∧
      env.diskWrite = .complete ∧ env.unlinks = true))
  | .restart => isTrue trivial

/-- The tuple that a step commits. -/
def commits (s : NVRecEngine) : Action → Option Tuple
  | .tick (.client env) =>
    match s.client with
    | .transacting value =>
      if (s.pools s.pool).isOpen = true ∧ env.commits = true then some value else none
    | _ => none
  | _ => none

end NvrecYcsb.NvRec
