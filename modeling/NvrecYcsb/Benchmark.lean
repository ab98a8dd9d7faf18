/-
  NvrecYcsb/Benchmark.lean
  ========================
  **What the benchmark reports** (`ycsbc.cc`).

  `main2` runs one `DelegateClient` a thread, first to load and then, for a fixed
  time, to run transactions.  Each returns a count, and `main2` adds the counts
  up.  What a client's calls return, and the clock it reads, are inputs: any
  store, any workload and any interleaving give some.

  A report holds the two figures that are printed and, for the statements about
  them, what the calls returned.  The count of a loading client is reset before it
  is returned, and the throughput is computed from the configured number of
  operations.

  * `main2_prints`: the two figures, whatever the calls return;
  * `main2_load`, `main2_run`: when a phase comes to its end, and what its calls
    have returned then;
  * `correct_iff`: when the figures are right all the same.
-/
import NvrecYcsb.TransactionKeys

namespace NvrecYcsb.Benchmark

open CppRuntime Workload TransactionKeys

def kExperimentDuration : UInt64 := 150

/-- What the calls of a client return, one after another, and the seconds on its
    clock after each. -/
structure ClientRun where
  results : List (Outcome Bool)
  clock : List Int := []

/-- How a loop ends: the count, or how the call that did not return ended; what the
    calls returned; and the results of the calls still to come. -/
structure LoopEnd where
  oks : Outcome Int
  calls : List Bool
  rest : List (Outcome Bool)

/-- `for (int i = 0; i < num_ops; ++i)`, with `calls` returned so far. -/
def countedLoop (isLoading isTimed : Bool) :
    Nat → List (Outcome Bool) → Int → List Bool → LoopEnd
  | 0, results, oks, calls => ⟨.returned oks, calls, results⟩
  | n + 1, results, oks, calls =>
    if !isLoading && isTimed then ⟨.returned oks, calls, results⟩
    else
      match results with
      | .returned ok :: results =>
        countedLoop isLoading isTimed n results (oks + ok.toInt) (calls ++ [ok])
      | [] => ⟨.running, calls, []⟩
      | .threw e :: results => ⟨.threw e, calls, results⟩
      | .aborted :: results => ⟨.aborted, calls, results⟩
      | .undefined :: results => ⟨.undefined, calls, results⟩
      | .running :: results => ⟨.running, calls, results⟩

/-- `do … while (diff <= exec_time)`; the comparison is unsigned. -/
def timedLoop (execTime : UInt64) :
    List (Outcome Bool) → List Int → Int → List Bool → LoopEnd
  | .returned ok :: results, diff :: clock, oks, calls =>
    if UInt64.ofInt diff ≤ execTime then
      timedLoop execTime results clock (oks + ok.toInt) (calls ++ [ok])
    else ⟨.returned (oks + ok.toInt), calls ++ [ok], results⟩
  | .threw e :: results, _, _, calls => ⟨.threw e, calls, results⟩
  | .aborted :: results, _, _, calls => ⟨.aborted, calls, results⟩
  | .undefined :: results, _, _, calls => ⟨.undefined, calls, results⟩
  | results, _, _, calls => ⟨.running, calls, results⟩

/-- `DelegateClient`: its result, and what its calls returned. -/
def delegateClient (client : ClientRun) (numOps : Int) (isLoading isTimed : Bool)
    (execTime : UInt64) : Outcome Int × List Bool :=
  let loop := countedLoop isLoading isTimed numOps.toNat client.results 0 []
  match loop.oks with
  | .returned _ =>
    -- oks = 0
    if !isLoading && isTimed then
      let loop := timedLoop execTime loop.rest client.clock 0 loop.calls
      (loop.oks, loop.calls)
    else (.returned 0, loop.calls)
  | stopped => (stopped, loop.calls)

/-- The threads of one phase: the sum of their results, taken in order, and what
    all their calls returned. -/
def runClients (numThreads : Int) (client : Nat → Outcome Int × List Bool) :
    Outcome Int × List Bool :=
  let clients := (List.range numThreads.toNat).map client
  -- assert((int)actual_ops.size() == num_threads)
  if (clients.length : Int) ≠ numThreads then (.aborted, [])
  else
    (clients.foldl (fun sum n => sum >>= fun s => n.1 >>= fun k => .returned (s + k))
      (.returned 0), clients.flatMap Prod.snd)

/-- The number printed as `# Loading records`, the dividend of the printed
    throughput, and what the calls of the two phases returned. -/
structure Report where
  loadingRecords : Option Int := none
  operations : Option Int := none
  inserts : List Bool := []
  transactions : List Bool := []

/-- `props[key]`. -/
def propertyAt (p : Properties) (key : Str) : Outcome Str :=
  match p key with
  | some value => .returned value
  | none => .threw .outOfRange

def dbNameProperty : Str := str "dbname"
def threadCountProperty : Str := str "threadcount"

/-- The names for which `CreateDB` gives a store. -/
def databases : List Str :=
  [str "basic", str "lock_stl", str "tbb_rand", str "tbb_scan", str "nvmrec", str "nvmlog",
    str "nvmblk"]

/-- What `main2` does before the load: the number of threads and of records. -/
def configure (D : DoubleArith) (p : Properties) : Outcome (Int × Int) := do
  let dbName ← propertyAt p dbNameProperty
  if dbName ∉ databases then .aborted -- exit(0)
  else
    let _ ← init D p
    let numThreads ← stoi (getProperty p threadCountProperty (str "1"))
    let recordCount ← propertyAt p recordCountProperty
    let totalOps ← stoi recordCount
    .returned (numThreads, totalOps)

/-- `total_ops` of the transactions. -/
def operationCount (p : Properties) : Outcome Int := do
  let operationCount ← propertyAt p operationCountProperty
  stoi operationCount

/-- The part of `main2` that performs transactions, after the load has been
    reported. -/
def performTransactions (p : Properties) (numThreads : Int) (runs : Nat → ClientRun)
    (r : Report) : Report :=
  match operationCount p with
  | .returned totalOps =>
    let (sum, transactions) := runClients numThreads fun i =>
      delegateClient (runs i) (totalOps.tdiv numThreads) false true kExperimentDuration
    match sum with
    | .returned _ => { r with operations := some totalOps, transactions := transactions }
    | _ => { r with transactions := transactions }
  | _ => r

/-- `main2`.  A call that does not return ends the program, and what was printed
    before stays printed.  It ends without the return its type asks for, after its
    last line is printed; what `main` makes of the result is not part of the report. -/
def main2 (D : DoubleArith) (p : Properties) (loads runs : Nat → ClientRun) : Report :=
  match configure D p with
  | .returned (numThreads, totalOps) =>
    let (sum, inserts) := runClients numThreads fun i =>
      delegateClient (loads i) (totalOps.tdiv numThreads) true false 0
    match sum with
    | .returned sum =>
      performTransactions p numThreads runs { loadingRecords := some sum, inserts := inserts }
    | _ => { inserts := inserts }
  | _ => {}

/-- **The benchmark reports what it did.** -/
def Correct (r : Report) : Prop :=
  (∀ n, r.loadingRecords = some n → n = r.inserts.count true) ∧
    ∀ n, r.operations = some n → n = r.transactions.count true

/-! ### What the clients do -/

/-- What the calls return, up to the first that does not. -/
def returnedCalls : List (Outcome Bool) → List Bool
  | .returned ok :: results => ok :: returnedCalls results
  | _ => []

namespace ClientRun

/-- What the inserts return that a client is to make. -/
def inserts (client : ClientRun) (numOps : Int) : List Bool :=
  (returnedCalls client.results).take numOps.toNat

/-- The client makes all its inserts. -/
def FinishesLoad (client : ClientRun) (numOps : Int) : Prop :=
  numOps.toNat ≤ (returnedCalls client.results).length

/-- The transactions after which there is time left. -/
def inTime (client : ClientRun) : Nat :=
  client.clock.findIdx fun diff => kExperimentDuration < UInt64.ofInt diff

/-- What the transactions return that the client makes: one more than are in time. -/
def transactions (client : ClientRun) : List Bool :=
  (returnedCalls client.results).take (client.inTime + 1)

/-- The time is up at last, and no transaction before that fails to return. -/
def FinishesRun (client : ClientRun) : Prop :=
  client.inTime < client.clock.length ∧ client.inTime < (returnedCalls client.results).length

end ClientRun

/-! ### What the clients return -/

/-- The count of a loading client is thrown away. -/
theorem delegateClient_load {client : ClientRun} {numOps : Int} {execTime : UInt64} {k : Int}
    (h : (delegateClient client numOps true false execTime).1 = .returned k) : k = 0 := by
  rw [delegateClient] at h
  cases hloop : (countedLoop true false numOps.toNat client.results 0 []).oks with
  | returned oks =>
    rw [hloop] at h
    exact (Outcome.returned.inj h).symm
  | threw e => rw [hloop] at h; cases h
  | aborted => rw [hloop] at h; cases h
  | undefined => rw [hloop] at h; cases h
  | running => rw [hloop] at h; cases h

theorem count_snoc (calls : List Bool) (ok : Bool) :
    ((calls ++ [ok]).count true : Int) = calls.count true + ok.toInt := by
  cases ok <;> simp [List.count_append]

/-- The timed loop counts the calls that returned `true`. -/
theorem timedLoop_oks (execTime : UInt64) (results : List (Outcome Bool)) (clock : List Int)
    (oks : Int) (calls : List Bool) {k : Int} (hoks : oks = calls.count true)
    (h : (timedLoop execTime results clock oks calls).oks = .returned k) :
    k = (timedLoop execTime results clock oks calls).calls.count true := by
  induction results, clock, oks, calls using timedLoop.induct execTime with
  | case1 ok results diff clock oks calls hdiff ih =>
    rw [timedLoop, if_pos hdiff] at h ⊢
    exact ih (by rw [count_snoc, hoks]) h
  | case2 ok results diff clock oks calls hdiff =>
    rw [timedLoop, if_neg hdiff] at h ⊢
    obtain rfl := Outcome.returned.inj h
    rw [count_snoc, hoks]
  | case3 => simp [timedLoop] at h
  | case4 => simp [timedLoop] at h
  | case5 => simp [timedLoop] at h
  | case6 => simp [timedLoop] at h

/-- The counted loop of the load makes the calls that return, at most `n`. -/
theorem countedLoop_load (n : Nat) (results : List (Outcome Bool)) (oks : Int)
    (calls : List Bool) :
    (countedLoop true false n results oks calls).calls =
        calls ++ (returnedCalls results).take n ∧
      ((∃ k, (countedLoop true false n results oks calls).oks = .returned k) ↔
        n ≤ (returnedCalls results).length) := by
  induction n generalizing results oks calls with
  | zero => simp [countedLoop]
  | succ n ih =>
    rcases results with - | ⟨ok | _ | _ | _ | _, results⟩
    case cons.returned =>
      obtain ⟨hcalls, hends⟩ := ih results (oks + ok.toInt) (calls ++ [ok])
      constructor
      · simp [countedLoop, returnedCalls, hcalls]
      · simp [countedLoop, returnedCalls, hends]
    all_goals simp [countedLoop, returnedCalls]

/-- A loading client ends when it has made all its inserts. -/
theorem delegateClient_inserts (client : ClientRun) (numOps : Int) (execTime : UInt64) :
    (delegateClient client numOps true false execTime).2 = client.inserts numOps ∧
      ((∃ k, (delegateClient client numOps true false execTime).1 = .returned k) ↔
        client.FinishesLoad numOps) := by
  obtain ⟨hcalls, hends⟩ := countedLoop_load numOps.toNat client.results 0 []
  rw [List.nil_append] at hcalls
  rw [ClientRun.inserts, ClientRun.FinishesLoad, ← hcalls, ← hends, delegateClient]
  cases (countedLoop true false numOps.toNat client.results 0 []).oks <;> simp

/-- The timed loop ends when a call has returned after which the time is up. -/
theorem timedLoop_calls (execTime : UInt64) (results : List (Outcome Bool)) (clock : List Int)
    (oks : Int) (calls : List Bool) :
    ((∃ k, (timedLoop execTime results clock oks calls).oks = .returned k) ↔
        clock.findIdx (fun diff => execTime < UInt64.ofInt diff) < clock.length ∧
          clock.findIdx (fun diff => execTime < UInt64.ofInt diff) <
            (returnedCalls results).length) ∧
      ((∃ k, (timedLoop execTime results clock oks calls).oks = .returned k) →
        (timedLoop execTime results clock oks calls).calls = calls ++
          (returnedCalls results).take
            (clock.findIdx (fun diff => execTime < UInt64.ofInt diff) + 1)) := by
  induction results, clock, oks, calls using timedLoop.induct execTime with
  | case1 ok results diff clock oks calls hdiff ih =>
    have hindex : (diff :: clock).findIdx (fun diff => execTime < UInt64.ofInt diff) =
        clock.findIdx (fun diff => execTime < UInt64.ofInt diff) + 1 := by
      simp [List.findIdx_cons, UInt64.not_lt.mpr hdiff]
    rw [timedLoop, if_pos hdiff, hindex]
    refine ⟨ih.1.trans (by simp [returnedCalls]), fun hends => ?_⟩
    rw [ih.2 hends, returnedCalls, List.take_succ_cons, List.append_assoc, List.singleton_append]
  | case2 ok results diff clock oks calls hdiff =>
    have hindex : (diff :: clock).findIdx (fun diff => execTime < UInt64.ofInt diff) = 0 := by
      simp [List.findIdx_cons, UInt64.not_le.mp hdiff]
    rw [timedLoop, if_neg hdiff, hindex]
    simp [returnedCalls]
  | case3 => simp [timedLoop, returnedCalls]
  | case4 => simp [timedLoop, returnedCalls]
  | case5 => simp [timedLoop, returnedCalls]
  | case6 results clock oks calls hreturned hthrew haborted hundefined =>
    have hstops : ¬∃ k, (timedLoop execTime results clock oks calls).oks = .returned k := by
      simp [timedLoop]
    have hnone : clock = [] ∨ returnedCalls results = [] := by
      rcases results with - | ⟨ok | _ | _ | _ | _, results⟩
      case cons.returned =>
        cases clock with
        | nil => exact .inl rfl
        | cons diff clock => exact (hreturned ok results diff clock rfl rfl).elim
      all_goals exact .inr rfl
    refine ⟨iff_of_false hstops fun ⟨hclock, hresults⟩ => ?_, fun hends => (hstops hends).elim⟩
    rcases hnone with rfl | hnil
    · exact Nat.not_lt_zero _ hclock
    · rw [hnil] at hresults
      exact Nat.not_lt_zero _ hresults

theorem countedLoop_timed (n : Nat) (results : List (Outcome Bool)) (oks : Int)
    (calls : List Bool) :
    countedLoop false true n results oks calls = ⟨.returned oks, calls, results⟩ := by
  cases n <;> rfl

/-- The count of a timed client is that of its calls that returned `true`. -/
theorem delegateClient_timed {client : ClientRun} {numOps : Int} {execTime : UInt64} {k : Int}
    (h : (delegateClient client numOps false true execTime).1 = .returned k) :
    k = (delegateClient client numOps false true execTime).2.count true := by
  simp only [delegateClient, countedLoop_timed] at h ⊢
  exact timedLoop_oks execTime client.results client.clock 0 [] rfl h

/-- A timed client ends when the time is up for it. -/
theorem delegateClient_transactions (client : ClientRun) (numOps : Int) :
    ((∃ k, (delegateClient client numOps false true kExperimentDuration).1 = .returned k) ↔
        client.FinishesRun) ∧
      (client.FinishesRun →
        (delegateClient client numOps false true kExperimentDuration).2 =
          client.transactions) := by
  obtain ⟨hends, hcalls⟩ := timedLoop_calls kExperimentDuration client.results client.clock 0 []
  simp only [delegateClient, countedLoop_timed]
  exact ⟨hends, fun hfinishes => hcalls (hends.mpr hfinishes)⟩

/-- `sum += n.get()`: every client has returned. -/
theorem foldl_get_returned (clients : List (Outcome Int × List Bool)) (acc : Outcome Int) :
    (∃ sum, clients.foldl (fun sum n => sum >>= fun s => n.1 >>= fun k => .returned (s + k)) acc =
        .returned sum) ↔
      (∃ s, acc = .returned s) ∧ ∀ n ∈ clients, ∃ k, n.1 = .returned k := by
  induction clients generalizing acc with
  | nil => simp
  | cons client clients ih =>
    rw [List.foldl_cons, ih, List.forall_mem_cons, ← and_assoc]
    refine and_congr_left fun _ => ?_
    constructor
    · rintro ⟨s, hs⟩
      obtain ⟨s', hacc, hrest⟩ := Outcome.bind_eq_returned.mp hs
      obtain ⟨k, hk, -⟩ := Outcome.bind_eq_returned.mp hrest
      exact ⟨⟨s', hacc⟩, k, hk⟩
    · rintro ⟨⟨s, rfl⟩, k, hk⟩
      exact ⟨s + k, by rw [hk]; rfl⟩

theorem runClients_of_nonneg {numThreads : Int} (h : 0 ≤ numThreads)
    (client : Nat → Outcome Int × List Bool) :
    runClients numThreads client =
      (((List.range numThreads.toNat).map client).foldl
        (fun sum n => sum >>= fun s => n.1 >>= fun k => .returned (s + k)) (.returned 0),
        ((List.range numThreads.toNat).map client).flatMap Prod.snd) := by
  rw [runClients, if_neg]
  simp [h]

/-- A phase ends when there is no negative number of threads and each of them
    returns. -/
theorem runClients_returned (numThreads : Int) (client : Nat → Outcome Int × List Bool) :
    (∃ sum, (runClients numThreads client).1 = .returned sum) ↔
      0 ≤ numThreads ∧ ∀ i < numThreads.toNat, ∃ k, (client i).1 = .returned k := by
  by_cases h : 0 ≤ numThreads
  · rw [runClients_of_nonneg h, foldl_get_returned]
    simp [h]
  · rw [runClients, if_pos (by simp; omega)]
    simp [h]

/-- The sum over the clients, for any count of calls that their results agree with. -/
theorem runClients_sum {numThreads : Int} {client : Nat → Outcome Int × List Bool} {sum : Int}
    (h : (runClients numThreads client).1 = .returned sum) (count : List Bool → Nat)
    (happend : ∀ xs ys, count (xs ++ ys) = count xs + count ys) (hnil : count [] = 0)
    (hclient : ∀ i k, (client i).1 = .returned k → k = count (client i).2) :
    sum = count (runClients numThreads client).2 := by
  have hfold : ∀ (is : List Nat) (acc : Int) (before : List Bool), acc = count before →
      ((is.map client).foldl (fun sum n => sum >>= fun s => n.1 >>= fun k => .returned (s + k))
        (.returned acc)) = .returned sum →
      sum = count (before ++ (is.map client).flatMap Prod.snd) := by
    intro is
    induction is with
    | nil =>
      intro acc before hacc hsum
      obtain rfl := Outcome.returned.inj hsum
      simpa using hacc
    | cons i is ih =>
      intro acc before hacc hsum
      rw [List.map_cons, List.foldl_cons, Outcome.returned_bind] at hsum
      obtain ⟨s, hs⟩ := ((foldl_get_returned _ _).mp ⟨sum, hsum⟩).1
      obtain ⟨k, hk, -⟩ := Outcome.bind_eq_returned.mp hs
      rw [hk, Outcome.returned_bind] at hsum
      have hnext := ih (acc + k) (before ++ (client i).2)
        (by rw [happend, Nat.cast_add, hacc, hclient i k hk]) hsum
      rwa [List.map_cons, List.flatMap_cons, ← List.append_assoc]
  have hnonneg : 0 ≤ numThreads := ((runClients_returned numThreads client).mp ⟨sum, h⟩).1
  rw [runClients_of_nonneg hnonneg] at h ⊢
  have hall := hfold (List.range numThreads.toNat) 0 [] (by rw [hnil]; rfl) h
  rwa [List.nil_append] at hall

/-- **The sum that `main2` computes over the transactions, and does not print, is
    right.** -/
theorem runClients_timed {numThreads numOps : Int} {runs : Nat → ClientRun} {execTime : UInt64}
    {sum : Int}
    (h : (runClients numThreads fun i => delegateClient (runs i) numOps false true execTime).1 =
      .returned sum) :
    sum = (runClients numThreads fun i =>
      delegateClient (runs i) numOps false true execTime).2.count true :=
  runClients_sum h (List.count true) (fun _ _ => List.count_append) rfl
    fun _ _ => delegateClient_timed

/-- The sum over the load is 0, whatever was inserted. -/
theorem runClients_load {numThreads numOps : Int} {loads : Nat → ClientRun} {execTime : UInt64}
    {sum : Int}
    (h : (runClients numThreads fun i => delegateClient (loads i) numOps true false execTime).1 =
      .returned sum) : sum = 0 :=
  runClients_sum h (fun _ => 0) (fun _ _ => rfl) rfl fun _ _ => delegateClient_load

/-! ### When the report is right -/

theorem performTransactions_keeps (p : Properties) (numThreads : Int) (runs : Nat → ClientRun)
    (r : Report) :
    (performTransactions p numThreads runs r).loadingRecords = r.loadingRecords ∧
      (performTransactions p numThreads runs r).inserts = r.inserts := by
  rw [performTransactions]
  split
  · generalize runClients numThreads _ = run
    obtain ⟨sum, transactions⟩ := run
    dsimp only
    split <;> exact ⟨rfl, rfl⟩
  · exact ⟨rfl, rfl⟩

theorem performTransactions_prints (p : Properties) (numThreads : Int) (runs : Nat → ClientRun)
    {r : Report} (hr : r.operations = none) :
    ∀ n, (performTransactions p numThreads runs r).operations = some n →
      operationCount p = .returned n := by
  rw [performTransactions]
  split
  · rename_i totalOps hops
    generalize runClients numThreads _ = run
    obtain ⟨sum, transactions⟩ := run
    dsimp only
    split
    · exact fun n hn => hops.trans (congrArg Outcome.returned (Option.some.inj hn))
    · exact fun n hn => by rw [hr] at hn; cases hn
  · exact fun n hn => by rw [hr] at hn; cases hn

/-- What `main2` prints. -/
theorem main2_prints (D : DoubleArith) (p : Properties) (loads runs : Nat → ClientRun) :
    (∀ n, (main2 D p loads runs).loadingRecords = some n → n = 0) ∧
      ∀ n, (main2 D p loads runs).operations = some n → operationCount p = .returned n := by
  rw [main2]
  split
  · rename_i numThreads totalOps _
    have hload : ∀ sum, (runClients numThreads fun i =>
        delegateClient (loads i) (totalOps.tdiv numThreads) true false 0).1 = .returned sum →
        sum = 0 := fun sum => runClients_load
    generalize runClients numThreads _ = load at hload ⊢
    obtain ⟨sum, inserts⟩ := load
    dsimp only at hload ⊢
    split
    · rename_i sum
      have hr : ({ loadingRecords := some sum, inserts := inserts } : Report).operations = none :=
        rfl
      refine ⟨fun n hn => ?_, performTransactions_prints p numThreads runs hr⟩
      rw [(performTransactions_keeps p numThreads runs _).1] at hn
      exact (Option.some.inj hn).symm.trans (hload sum rfl)
    · exact ⟨nofun, nofun⟩
  · exact ⟨nofun, nofun⟩

/-- A report without figures says nothing wrong. -/
theorem correct_of_silent {r : Report} (hloading : r.loadingRecords = none)
    (hoperations : r.operations = none) : Correct r := by
  rw [Correct, hloading, hoperations]
  exact ⟨fun n hn => (Option.some_ne_none n hn.symm).elim,
    fun n hn => (Option.some_ne_none n hn.symm).elim⟩

/-- What all the calls of a phase have returned. -/
theorem runClients_calls {numThreads : Int} (h : 0 ≤ numThreads)
    {client : Nat → Outcome Int × List Bool} {calls : Nat → List Bool}
    (hcalls : ∀ i < numThreads.toNat, (client i).2 = calls i) :
    (runClients numThreads client).2 = (List.range numThreads.toNat).flatMap calls := by
  rw [runClients_of_nonneg h, List.flatMap_map]
  exact List.flatMap_congr fun i hi => hcalls i (List.mem_range.mp hi)

theorem runClients_load_returned (numThreads numOps : Int) (loads : Nat → ClientRun)
    (execTime : UInt64) :
    (∃ sum, (runClients numThreads fun i =>
        delegateClient (loads i) numOps true false execTime).1 = .returned sum) ↔
      0 ≤ numThreads ∧ ∀ i < numThreads.toNat, (loads i).FinishesLoad numOps := by
  rw [runClients_returned]
  exact and_congr_right fun _ =>
    forall₂_congr fun i _ => (delegateClient_inserts (loads i) numOps execTime).2

theorem runClients_run_returned (numThreads numOps : Int) (runs : Nat → ClientRun) :
    (∃ sum, (runClients numThreads fun i =>
        delegateClient (runs i) numOps false true kExperimentDuration).1 = .returned sum) ↔
      0 ≤ numThreads ∧ ∀ i < numThreads.toNat, (runs i).FinishesRun := by
  rw [runClients_returned]
  exact and_congr_right fun _ =>
    forall₂_congr fun i _ => (delegateClient_transactions (runs i) numOps).1

section Phases

variable {D : DoubleArith} {p : Properties} {numThreads recordCount totalOps : Int}

/-- After a load that comes to its end, 0 is printed. -/
theorem main2_load (hconfigure : configure D p = .returned (numThreads, recordCount))
    (hnonneg : 0 ≤ numThreads) {loads : Nat → ClientRun}
    (hload : ∀ i < numThreads.toNat, (loads i).FinishesLoad (recordCount.tdiv numThreads))
    (runs : Nat → ClientRun) :
    main2 D p loads runs = performTransactions p numThreads runs
      { loadingRecords := some 0
        inserts := (List.range numThreads.toNat).flatMap fun i =>
          (loads i).inserts (recordCount.tdiv numThreads) } := by
  have hcalls := runClients_calls hnonneg fun i _ =>
    (delegateClient_inserts (loads i) (recordCount.tdiv numThreads) 0).1
  obtain ⟨sum, hsum⟩ := (runClients_load_returned numThreads _ loads 0).mpr ⟨hnonneg, hload⟩
  obtain rfl := runClients_load hsum
  simp only [main2, hconfigure, hsum, hcalls]

/-- A load that does not come to its end prints nothing. -/
theorem main2_stopped (hconfigure : configure D p = .returned (numThreads, recordCount))
    {loads : Nat → ClientRun}
    (hstops : ¬(0 ≤ numThreads ∧
      ∀ i < numThreads.toNat, (loads i).FinishesLoad (recordCount.tdiv numThreads)))
    (runs : Nat → ClientRun) :
    (main2 D p loads runs).loadingRecords = none ∧ (main2 D p loads runs).operations = none := by
  rw [← runClients_load_returned numThreads _ loads 0] at hstops
  simp only [main2, hconfigure]
  split
  · rename_i sum hsum
    exact (hstops ⟨sum, hsum⟩).elim
  · exact ⟨rfl, rfl⟩

/-- After a run that comes to its end, the throughput is computed from the
    configured number of operations. -/
theorem performTransactions_run (hops : operationCount p = .returned totalOps)
    (hnonneg : 0 ≤ numThreads) {runs : Nat → ClientRun}
    (hrun : ∀ i < numThreads.toNat, (runs i).FinishesRun) (r : Report) :
    performTransactions p numThreads runs r =
      { r with
        operations := some totalOps
        transactions := (List.range numThreads.toNat).flatMap fun i =>
          (runs i).transactions } := by
  have hcalls := runClients_calls hnonneg fun i hi =>
    (delegateClient_transactions (runs i) (totalOps.tdiv numThreads)).2 (hrun i hi)
  obtain ⟨sum, hsum⟩ := (runClients_run_returned numThreads (totalOps.tdiv numThreads) runs).mpr
    ⟨hnonneg, hrun⟩
  simp only [performTransactions, hops, hsum, hcalls]

/-- A run that does not come to its end adds no figure. -/
theorem performTransactions_stopped {runs : Nat → ClientRun}
    (hstops : ¬∀ i < numThreads.toNat, (runs i).FinishesRun) (r : Report) :
    (performTransactions p numThreads runs r).operations = r.operations := by
  rw [performTransactions]
  split
  · rename_i totalOps _
    have hnot : ¬∃ sum, (runClients numThreads fun i => delegateClient (runs i)
        (totalOps.tdiv numThreads) false true kExperimentDuration).1 = .returned sum :=
      fun hsum => hstops ((runClients_run_returned numThreads _ runs).mp hsum).2
    generalize runClients numThreads _ = run at hnot ⊢
    obtain ⟨sum, transactions⟩ := run
    dsimp only at hnot ⊢
    split
    · rename_i sum
      exact (hnot ⟨sum, rfl⟩).elim
    · rfl
  · rfl

theorem correct_performTransactions (hnonneg : 0 ≤ numThreads) (runs : Nat → ClientRun)
    (inserts : List Bool) :
    Correct (performTransactions p numThreads runs
        { loadingRecords := some 0, inserts := inserts }) ↔
      true ∉ inserts ∧ ∀ totalOps, operationCount p = .returned totalOps →
        (∀ i < numThreads.toNat, (runs i).FinishesRun) →
        totalOps = ((List.range numThreads.toNat).flatMap fun i =>
          (runs i).transactions).count true := by
  obtain ⟨hloading, hinserts⟩ := performTransactions_keeps p numThreads runs
    { loadingRecords := some 0, inserts := inserts }
  refine and_congr ?_ ?_
  · rw [hloading, hinserts, ← List.count_eq_zero]
    constructor
    · intro h
      have hcount : (0 : Int) = inserts.count true := h 0 rfl
      omega
    · intro h n hn
      rw [h]
      exact (Option.some.inj hn).symm
  · by_cases hrun : ∀ i < numThreads.toNat, (runs i).FinishesRun
    · constructor
      · intro h totalOps hops _
        rw [performTransactions_run hops hnonneg hrun] at h
        exact h totalOps rfl
      · intro h n hn
        have hops := performTransactions_prints p numThreads runs rfl n hn
        rw [performTransactions_run hops hnonneg hrun]
        exact h n hops hrun
    · rw [performTransactions_stopped hrun]
      exact iff_of_true (fun n hn => (Option.some_ne_none n hn.symm).elim)
        fun _ _ h => absurd h hrun

end Phases

/-- **The report is right** exactly when, of a load that comes to its end, no insert
    returns `true`, and of a run that comes to its end after it, as many
    transactions return `true` as operations are configured.  When a phase comes to
    its end, and which calls it makes, is read off what the calls return and the
    clocks of its clients. -/
theorem correct_iff (D : DoubleArith) (p : Properties) (loads runs : Nat → ClientRun) :
    Correct (main2 D p loads runs) ↔
      ∀ numThreads recordCount, configure D p = .returned (numThreads, recordCount) →
        0 ≤ numThreads →
        (∀ i < numThreads.toNat, (loads i).FinishesLoad (recordCount.tdiv numThreads)) →
        (∀ i < numThreads.toNat, true ∉ (loads i).inserts (recordCount.tdiv numThreads)) ∧
          ∀ totalOps, operationCount p = .returned totalOps →
            (∀ i < numThreads.toNat, (runs i).FinishesRun) →
            totalOps = ((List.range numThreads.toNat).flatMap fun i =>
              (runs i).transactions).count true := by
  constructor
  · intro h numThreads recordCount hconfigure hnonneg hload
    rw [main2_load hconfigure hnonneg hload, correct_performTransactions hnonneg] at h
    obtain ⟨hinserts, hoperations⟩ := h
    refine ⟨fun i hi hmem => hinserts ?_, hoperations⟩
    exact List.mem_flatMap.mpr ⟨i, List.mem_range.mpr hi, hmem⟩
  · intro h
    cases hconfigure : configure D p with
    | returned configured =>
      obtain ⟨numThreads, recordCount⟩ := configured
      by_cases hload : 0 ≤ numThreads ∧
          ∀ i < numThreads.toNat, (loads i).FinishesLoad (recordCount.tdiv numThreads)
      · obtain ⟨hinserts, hoperations⟩ := h numThreads recordCount hconfigure hload.1 hload.2
        rw [main2_load hconfigure hload.1 hload.2, correct_performTransactions hload.1]
        refine ⟨fun hmem => ?_, hoperations⟩
        obtain ⟨i, hi, hi'⟩ := List.mem_flatMap.mp hmem
        exact hinserts i (List.mem_range.mp hi) hi'
      · obtain ⟨hloading, hoperations⟩ := main2_stopped hconfigure hload runs
        exact correct_of_silent hloading hoperations
    | threw | aborted | undefined | running =>
      -- nothing is loaded and nothing is printed
      rw [main2, hconfigure]
      exact correct_of_silent rfl rfl

/-- `dbname=basic`, `recordcount=1`, `operationcount=1` and the defaults. -/
def oneOfEach : Properties := fun key =>
  if key = dbNameProperty then some (str "basic")
  else if key = recordCountProperty ∨ key = operationCountProperty then some (str "1")
  else none

/-- **One record loaded, none reported**: the insert returns `true`, and the time is
    up after one transaction. -/
theorem not_correct_oneOfEach :
    ¬Correct (main2 digitArith oneOfEach (fun _ => { results := [.returned true] })
      fun _ => { results := [.returned true], clock := [151] }) := by
  intro hcorrect
  have hloaded := hcorrect.1 0 (by decide +kernel)
  exact absurd hloaded (by decide +kernel)

end NvrecYcsb.Benchmark
