/-
  NvrecYcsb/NvmLog.lean
  =====================
  **The log engine** (`recovery/nvmlog_engine.{h,cc}`).

  Tuples are appended to a pmemlog.  The engine keeps its own count
  `current_length_` of the bytes in the log and decides from it alone when to
  flush: the log is then walked in pieces of `sizeof(Tuple)`, each piece written
  to the disk log, and rewound.  A write that is not complete throws out of the
  walk, before the rewind.

  Of libpmemlog: `pmemlog_append` appends its bytes as a whole or, when it fails
  or they do not fit, not at all; `pmemlog_walk` hands out the log from its start
  in pieces of the size asked for; after `pmemlog_rewind` the log is empty.

  * `stored_cases`: everything a store can do, failures included;
  * `updateOnLog_journal`: with working devices a store appends its tuple to the
    disk log followed by the log, wherever the flush falls;
  * `exactJournal_throughout`: the journal of a session whose appends may fail;
  * `ready_iff`: over histories with reopens, the count agrees with the log, and
    no call can get stuck, exactly when only an empty log is reopened.
-/
import NvrecYcsb.RecoveryInterface
import NvrecYcsb.Runs

namespace NvrecYcsb.NvmLog

open CppRuntime RecoveryDefs RecoveryInterface Framing Runs

/-- How the device operations of one call turn out. -/
structure LogEnv where
  append : Bool := true                              -- pmemlog_append, if the record fits
  diskOpen : Bool := true                            -- open() of the disk log
  diskWrite : Nat → WriteOutcome := fun _ => .complete -- write(), by piece

/-- Every device operation succeeds; an append still needs room for its record. -/
structure LogEnv.Ok (env : LogEnv) : Prop where
  append : env.append = true
  diskOpen : env.diskOpen = true
  diskWrite : ∀ i, env.diskWrite i = .complete

theorem LogEnv.ok_default : ({} : LogEnv).Ok := ⟨rfl, rfl, fun _ => rfl⟩

/-- The members of `NVMLogEngine`, the bytes in its log and the disk log. -/
structure NVMLogEngine where
  logPool : List Byte
  currentLength : Nat
  availableBytes : Nat
  diskLog : List Byte

namespace NVMLogEngine

/-- The members after construction over a log that holds `logPool`. -/
def build (availableBytes : Nat) (logPool diskLog : List Byte) : NVMLogEngine :=
  { logPool, currentLength := 0, availableBytes, diskLog }

/-- `BuildEngine` when `pmemlog_create` succeeds: an empty log, no disk log. -/
def create (availableBytes : Nat) : NVMLogEngine := build availableBytes [] []

/-- Destruction, then `BuildEngine` when the log file exists: `pmemlog_open`. -/
def reopen (s : NVMLogEngine) : NVMLogEngine := build s.availableBytes s.logPool s.diskLog

/-- `pmemlog_append`, which also refuses a record that does not fit. -/
def pmemlogAppend (env : LogEnv) (s : NVMLogEngine) (data : List Byte) :
    Option NVMLogEngine :=
  if env.append = true ∧ s.logPool.length + data.length ≤ s.availableBytes then
    some { s with logPool := s.logPool ++ data }
  else none

/-- `pmemlog_walk` with the callback of `FlushToDisk`, from piece `i` on.  The walk
    holds a lock of the library, which an exception out of the callback does not
    release.  The calls after such a throw are modelled as if it had: a result about
    runs that go on after one takes the log to stay usable. -/
def walkPieces (env : LogEnv) : Nat → List (List Byte) → List Byte → Outcome Unit × List Byte
  | _, [], disk => (.returned (), disk)
  | i, piece :: pieces, disk =>
    if (osWrite (env.diskWrite i) piece disk).1 = piece.length then
      walkPieces env (i + 1) pieces (osWrite (env.diskWrite i) piece disk).2
    else (.threw (.runtimeError "Write error!"), (osWrite (env.diskWrite i) piece disk).2)

/-- `FlushToDisk`.  `OSFile::Sync`, which ends without the return its type asks for,
    is taken to come back, as it does in a build that does not optimise; its value
    is not used. -/
def flushToDisk (env : LogEnv) (s : NVMLogEngine) : Outcome Unit × NVMLogEngine :=
  if env.diskOpen then
    andThen
      (match walkPieces env 0 (cut sizeofTuple s.logPool) s.diskLog with
        | (out, disk) => (out, { s with diskLog := disk }))
      fun _ s => (.returned (), { s with logPool := [], currentLength := 0 })
  else (.threw (.runtimeError "File Open Failed"), s)

/-- `UpdateOnLog`, after its check for room. -/
def appendTuple (env : LogEnv) (s : NVMLogEngine) (tuple : Tuple) :
    Outcome RecoveryStatus × NVMLogEngine :=
  match s.pmemlogAppend env tuple.bytes with
  | none => (.returned .kFail, s)
  | some s' => (.returned .kSuccess, { s' with currentLength := s'.currentLength + sizeofTuple })

def updateOnLog (env : LogEnv) (s : NVMLogEngine) (tuple : Tuple) :
    Outcome RecoveryStatus × NVMLogEngine :=
  if s.currentLength + sizeofTuple > s.availableBytes then
    andThen (s.flushToDisk env) fun _ s => s.appendTuple env tuple
  else s.appendTuple env tuple

end NVMLogEngine

open NVMLogEngine

abbrev logStore (env : LogEnv) (s : NVMLogEngine) (tuple : Tuple) :
    Outcome RecoveryStatus × NVMLogEngine := s.updateOnLog env tuple

/-- `NVMLogEngine` as a recovery engine: `PersistUpdate` and `PersistDelete`. -/
def engine : RecoveryEngine LogEnv NVMLogEngine := RecoveryEngine.ofStore logStore

/-! ### What a store can do -/

namespace NVMLogEngine

variable {env : LogEnv} {s : NVMLogEngine} {tuple : Tuple}

def appended (s : NVMLogEngine) (tuple : Tuple) : NVMLogEngine :=
  { s with logPool := s.logPool ++ tuple.bytes, currentLength := s.currentLength + sizeofTuple }

def flushed (s : NVMLogEngine) (disk : List Byte) : NVMLogEngine :=
  { s with logPool := [], currentLength := 0, diskLog := disk }

inductive Stored (env : LogEnv) (s : NVMLogEngine) (tuple : Tuple) :
    Outcome RecoveryStatus × NVMLogEngine → Prop
  | appended (hroom : s.currentLength + sizeofTuple ≤ s.availableBytes)
      (hfits : s.logPool.length + sizeofTuple ≤ s.availableBytes) :
      Stored env s tuple (.returned .kSuccess, s.appended tuple)
  | refused (hroom : s.currentLength + sizeofTuple ≤ s.availableBytes)
      (hrefused : env.append = false ∨ s.availableBytes < s.logPool.length + sizeofTuple) :
      Stored env s tuple (.returned .kFail, s)
  | flushedAppended (disk : List Byte) (hfull : s.availableBytes < s.currentLength + sizeofTuple)
      (hwalk : walkPieces env 0 (cut sizeofTuple s.logPool) s.diskLog = (.returned (), disk))
      (hfits : sizeofTuple ≤ s.availableBytes) :
      Stored env s tuple (.returned .kSuccess, (s.flushed disk).appended tuple)
  | flushedRefused (disk : List Byte) (hfull : s.availableBytes < s.currentLength + sizeofTuple)
      (hwalk : walkPieces env 0 (cut sizeofTuple s.logPool) s.diskLog = (.returned (), disk))
      (hrefused : env.append = false ∨ s.availableBytes < sizeofTuple) :
      Stored env s tuple (.returned .kFail, s.flushed disk)
  | flushThrew (e : Exn) (disk : List Byte)
      (hfull : s.availableBytes < s.currentLength + sizeofTuple)
      (hfailed : env.diskOpen = false ∨ ∃ i, env.diskWrite i ≠ .complete) :
      Stored env s tuple (.threw e, { s with diskLog := disk })

theorem walkPieces_cases (env : LogEnv) (i : Nat) (pieces : List (List Byte))
    (disk : List Byte) :
    (∃ d, walkPieces env i pieces disk = (.returned (), d)) ∨
    (∃ e d, walkPieces env i pieces disk = (.threw e, d) ∧
      ∃ j, env.diskWrite j ≠ .complete) := by
  induction pieces generalizing i disk with
  | nil => exact Or.inl ⟨disk, rfl⟩
  | cons piece pieces ih =>
    rw [walkPieces]
    by_cases hcount : (osWrite (env.diskWrite i) piece disk).1 = piece.length
    · rw [if_pos hcount]
      exact ih (i + 1) _
    · rw [if_neg hcount]
      refine Or.inr ⟨_, _, rfl, i, fun hcomplete => hcount ?_⟩
      rw [hcomplete, osWrite_complete]

theorem walkPieces_ok (hwrite : ∀ j, env.diskWrite j = .complete) (i : Nat)
    (pieces : List (List Byte)) (disk : List Byte) :
    walkPieces env i pieces disk = (.returned (), disk ++ pieces.flatten) := by
  induction pieces generalizing i disk with
  | nil => simp [walkPieces]
  | cons piece pieces ih =>
    rw [walkPieces, hwrite i, osWrite_complete, if_pos rfl, ih, List.flatten_cons,
      List.append_assoc]

theorem appendTuple_eq (env : LogEnv) (s : NVMLogEngine) (tuple : Tuple) :
    s.appendTuple env tuple =
      if env.append = true ∧ s.logPool.length + sizeofTuple ≤ s.availableBytes then
        (.returned .kSuccess, s.appended tuple)
      else (.returned .kFail, s) := by
  rw [appendTuple, pmemlogAppend, tuple.length_bytes]
  by_cases h : env.append = true ∧ s.logPool.length + sizeofTuple ≤ s.availableBytes
  · simp only [h, and_self, if_true]
    rfl
  · simp only [h, if_false]

theorem refused_of_not {p q : Nat} {b : Bool} (h : ¬(b = true ∧ p ≤ q)) :
    b = false ∨ q < p := by
  rcases Bool.eq_false_or_eq_true b with hb | hb
  · exact Or.inr (Nat.lt_of_not_le fun hle => h ⟨hb, hle⟩)
  · exact Or.inl hb

/-- **Inversion of a store.** -/
theorem stored_cases (env : LogEnv) (s : NVMLogEngine) (tuple : Tuple) :
    Stored env s tuple (s.updateOnLog env tuple) := by
  rw [updateOnLog]
  by_cases hfull : s.currentLength + sizeofTuple > s.availableBytes
  · rw [if_pos hfull, flushToDisk]
    rcases Bool.eq_false_or_eq_true env.diskOpen with hopen | hopen
    · rw [if_pos hopen]
      rcases walkPieces_cases env 0 (cut sizeofTuple s.logPool) s.diskLog with
        ⟨d, hd⟩ | ⟨e, d, hd, hwrite⟩
      · rw [hd]
        show Stored env s tuple ((s.flushed d).appendTuple env tuple)
        rw [appendTuple_eq]
        have hlen : (s.flushed d).logPool.length + sizeofTuple = sizeofTuple := Nat.zero_add _
        rw [hlen]
        by_cases h : env.append = true ∧ sizeofTuple ≤ (s.flushed d).availableBytes
        · rw [if_pos h]
          exact .flushedAppended d hfull hd h.2
        · rw [if_neg h]
          exact .flushedRefused d hfull hd (refused_of_not h)
      · rw [hd]
        exact .flushThrew e d hfull (Or.inr hwrite)
    · rw [if_neg (by simp [hopen])]
      exact .flushThrew _ s.diskLog hfull (Or.inl hopen)
  · rw [if_neg hfull, appendTuple_eq]
    by_cases h : env.append = true ∧ s.logPool.length + sizeofTuple ≤ s.availableBytes
    · rw [if_pos h]
      exact .appended (Nat.le_of_not_lt hfull) h.2
    · rw [if_neg h]
      exact .refused (Nat.le_of_not_lt hfull) (refused_of_not h)

/-! ### The count and the log -/

/-- The count of the engine is the number of bytes in the log, which fit. -/
structure Synced (s : NVMLogEngine) : Prop where
  count : s.currentLength = s.logPool.length
  fits : s.logPool.length ≤ s.availableBytes

theorem synced_create (availableBytes : Nat) : Synced (create availableBytes) :=
  ⟨rfl, Nat.zero_le _⟩

theorem length_appended (s : NVMLogEngine) (tuple : Tuple) :
    (s.appended tuple).logPool.length = s.logPool.length + sizeofTuple := by
  rw [appended, List.length_append, tuple.length_bytes]

theorem synced_updateOnLog (h : Synced s) (env : LogEnv) (tuple : Tuple) :
    Synced (s.updateOnLog env tuple).2 := by
  have hcases := stored_cases env s tuple
  generalize s.updateOnLog env tuple = r at hcases
  cases hcases with
  | appended _ hfits =>
    refine ⟨?_, ?_⟩
    · rw [length_appended, ← h.count]
      rfl
    · rw [length_appended]
      exact hfits
  | refused _ _ => exact h
  | flushedAppended disk _ _ hfits =>
    refine ⟨?_, ?_⟩
    · rw [length_appended]
      rfl
    · rw [length_appended]
      show 0 + sizeofTuple ≤ s.availableBytes
      omega
  | flushedRefused disk _ _ _ => exact ⟨rfl, Nat.zero_le _⟩
  | flushThrew e disk _ _ => exact ⟨h.count, h.fits⟩

theorem updateOnLog_kSuccess (h : Synced s) (hsize : sizeofTuple ≤ s.availableBytes)
    (henv : env.Ok) (tuple : Tuple) :
    (s.updateOnLog env tuple).1 = .returned .kSuccess := by
  have hcases := stored_cases env s tuple
  generalize s.updateOnLog env tuple = r at hcases
  cases hcases with
  | appended _ _ => rfl
  | refused hroom hrefused =>
    rcases hrefused with happend | hfull
    · rw [henv.append] at happend
      cases happend
    · have hcount := h.count
      omega
  | flushedAppended _ _ _ _ => rfl
  | flushedRefused disk _ _ hrefused =>
    rcases hrefused with happend | hsmall
    · rw [henv.append] at happend
      cases happend
    · omega
  | flushThrew e disk _ hfailed =>
    rcases hfailed with hopen | ⟨i, hwrite⟩
    · rw [henv.diskOpen] at hopen
      cases hopen
    · exact absurd (henv.diskWrite i) hwrite

/-! ### The journal -/

/-- The disk log holds the frames of `ds`, the log the frames of `ns`. -/
structure Journal (s : NVMLogEngine) (ds ns : List Tuple) : Prop where
  disk : s.diskLog = tupleCode.writeAll ds
  log : s.logPool = tupleCode.writeAll ns

theorem journal_create (availableBytes : Nat) : Journal (create availableBytes) [] [] :=
  ⟨rfl, rfl⟩

theorem flatten_cut_writeAll (ns : List Tuple) :
    (cut sizeofTuple (tupleCode.writeAll ns)).flatten = tupleCode.writeAll ns := by
  rw [show sizeofTuple = tupleCode.width from rfl, tupleCode.cut_writeAll]
  rfl

/-- **With working devices a store extends the journal by its tuple**, also when
    it first moves the log to disk. -/
theorem updateOnLog_journal (h : Synced s) (hsize : sizeofTuple ≤ s.availableBytes)
    (henv : env.Ok) {ds ns : List Tuple} (hj : Journal s ds ns) (tuple : Tuple) :
    ∃ s' ds' ns', s.updateOnLog env tuple = (.returned .kSuccess, s') ∧ Synced s' ∧
      s'.availableBytes = s.availableBytes ∧ Journal s' ds' ns' ∧
      ds' ++ ns' = ds ++ ns ++ [tuple] := by
  have hsynced := synced_updateOnLog h env tuple
  have hsuccess := updateOnLog_kSuccess h hsize henv tuple
  have hcases := stored_cases env s tuple
  generalize s.updateOnLog env tuple = r at hsynced hsuccess hcases
  have happend : ∀ ts : List Tuple, tupleCode.writeAll ts ++ tuple.bytes =
      tupleCode.writeAll (ts ++ [tuple]) := fun ts => by simp [tupleCode]
  cases hcases with
  | appended _ _ =>
    refine ⟨_, ds, ns ++ [tuple], rfl, hsynced, rfl, ⟨hj.disk, ?_⟩, by simp⟩
    rw [NVMLogEngine.appended, hj.log, happend]
  | flushedAppended disk _ hwalk _ =>
    rw [walkPieces_ok henv.diskWrite, hj.log, flatten_cut_writeAll, hj.disk,
      ← FixedCode.writeAll_append] at hwalk
    exact ⟨_, ds ++ ns, [tuple], rfl, hsynced, rfl,
      ⟨(Prod.mk.inj hwalk).2.symm, happend []⟩, rfl⟩
  | refused _ _ => cases hsuccess
  | flushedRefused _ _ _ _ => cases hsuccess
  | flushThrew _ _ _ _ => cases hsuccess

/-! ### Failing appends -/

/-- The tuples in the journal after a store that ended with `out`. -/
def ackedAfter (ts : List Tuple) (tuple : Tuple) (out : Outcome RecoveryStatus) : List Tuple :=
  if out = .returned .kSuccess then ts ++ [tuple] else ts

theorem appendTuple_acked {ds ns : List Tuple} (hj : Journal s ds ns) (env : LogEnv)
    (tuple : Tuple) :
    ∃ ns', Journal (s.appendTuple env tuple).2 ds ns' ∧
      ds ++ ns' = ackedAfter (ds ++ ns) tuple (s.appendTuple env tuple).1 := by
  rw [appendTuple_eq]
  by_cases h : env.append = true ∧ s.logPool.length + sizeofTuple ≤ s.availableBytes
  · rw [if_pos h]
    refine ⟨ns ++ [tuple], ⟨hj.disk, ?_⟩, ?_⟩
    · simp [NVMLogEngine.appended, hj.log, tupleCode]
    · simp [ackedAfter]
  · rw [if_neg h]
    refine ⟨ns, hj, ?_⟩
    simp [ackedAfter]

/-- **With complete writes a store extends the journal by its tuple when it returns
    `kSuccess`, and by nothing when it does not**: the append failed, also right
    after a flush, or the disk log could not be opened. -/
theorem updateOnLog_acked (hwrite : ∀ j, env.diskWrite j = .complete) {ds ns : List Tuple}
    (hj : Journal s ds ns) (tuple : Tuple) :
    ∃ ds' ns', Journal (s.updateOnLog env tuple).2 ds' ns' ∧
      ds' ++ ns' = ackedAfter (ds ++ ns) tuple (s.updateOnLog env tuple).1 := by
  rw [updateOnLog]
  by_cases hfull : s.currentLength + sizeofTuple > s.availableBytes
  · rw [if_pos hfull, flushToDisk]
    rcases Bool.eq_false_or_eq_true env.diskOpen with hopen | hclosed
    · have hflushed : Journal (s.flushed (s.diskLog ++ s.logPool)) (ds ++ ns) [] := by
        constructor
        · simp [flushed, hj.disk, hj.log]
        · rfl
      have hflatten : (cut sizeofTuple s.logPool).flatten = s.logPool := by
        rw [hj.log, flatten_cut_writeAll]
      obtain ⟨ns', hj', hacked⟩ := appendTuple_acked hflushed env tuple
      rw [List.append_nil] at hacked
      rw [if_pos hopen, walkPieces_ok hwrite, hflatten]
      exact ⟨ds ++ ns, ns', hj', hacked⟩
    · rw [hclosed]
      exact ⟨ds, ns, hj, rfl⟩
  · rw [if_neg hfull]
    obtain ⟨ns', hj', hacked⟩ := appendTuple_acked hj env tuple
    exact ⟨ds, ns', hj', hacked⟩

end NVMLogEngine

/-- The disk log followed by the log, cut into pieces of `sizeof(Tuple)`, is the
    tuples of the calls that returned `kSuccess`, in call order; the count of bytes
    stays within the log. -/
structure ExactJournal (s : Session NVMLogEngine) : Prop where
  pieces : cut sizeofTuple (s.engine.diskLog ++ s.engine.logPool) = s.acked.map Tuple.bytes
  bounded : s.engine.currentLength ≤ s.engine.availableBytes

/-- What the calls of a session keep: count and log agree, and the journal holds
    the acknowledged tuples, split anywhere between the two files. -/
structure Journaled (s : Session NVMLogEngine) : Prop where
  synced : Synced s.engine
  journal : ∃ ds ns, Journal s.engine ds ns ∧ ds ++ ns = s.acked

theorem journaled_create (availableBytes : Nat) : Journaled ⟨create availableBytes, []⟩ :=
  ⟨synced_create availableBytes, [], [], journal_create availableBytes, rfl⟩

theorem journaled_call {s : Session NVMLogEngine} (h : Journaled s) {env : LogEnv}
    (hwrite : ∀ j, env.diskWrite j = .complete) (c : PersistCall) :
    Journaled (s.call logStore (env, c)) := by
  apply Session.call_induction logStore h
  intro tuple _
  obtain ⟨ds, ns, hj, hacked⟩ := h.journal
  obtain ⟨ds', ns', hj', hacked'⟩ := updateOnLog_acked hwrite hj tuple
  constructor
  · exact synced_updateOnLog h.synced env tuple
  · refine ⟨ds', ns', hj', ?_⟩
    rw [hacked', hacked]
    rfl

theorem exactJournal_of_journaled {s : Session NVMLogEngine} (h : Journaled s) :
    ExactJournal s := by
  obtain ⟨ds, ns, hj, hacked⟩ := h.journal
  constructor
  · rw [hj.disk, hj.log, ← FixedCode.writeAll_append, hacked]
    exact tupleCode.cut_writeAll s.acked
  · rw [h.synced.count]
    exact h.synced.fits

/-- **The log engine is an exact journal.**  For a log of any size, every sequence
    of calls, and any pattern of failing appends, with complete disk writes: after
    every call the disk log followed by the log is exactly what was acknowledged,
    in order, and the count never exceeds the space. -/
theorem exactJournal_throughout (availableBytes : Nat) (is : List (LogEnv × PersistCall))
    (hwrite : ∀ i ∈ is, ∀ j, i.1.diskWrite j = .complete) :
    Throughout (Session.call logStore) ExactJournal ⟨create availableBytes, []⟩ is := by
  have hrun : Throughout (Session.call logStore) Journaled ⟨create availableBytes, []⟩ is := by
    apply throughout_of_allSteps
      (P := fun _ (i : LogEnv × PersistCall) => ∀ j, i.1.diskWrite j = .complete)
    · intro s i hs hi
      exact journaled_call hs hi i.2
    · exact journaled_create availableBytes
    · exact allSteps_const.mpr hwrite
  exact hrun.imp fun _ => exactJournal_of_journaled

/-- A full log: the append right after the flush fails, and the next one does not. -/
theorem exactJournal_failedAfterFlush :
    Throughout (Session.call logStore) ExactJournal ⟨create (sizeofTuple + 1), []⟩
      [({}, .delete 1), ({ append := false }, .delete 2), ({}, .delete 3)] :=
  exactJournal_throughout (sizeofTuple + 1) _ (by simp)

/-! ### Histories with reopens -/

/-- One operation: a call with any device outcomes, or closing and rebuilding. -/
def step (s : NVMLogEngine) : Session.Op LogEnv → NVMLogEngine
  | .call env c => (engine.call env s c).2
  | .restart => s.reopen

/-- The count agrees with the log, and with working devices every call whose
    tuple can be built returns `kSuccess`. -/
def Ready (s : NVMLogEngine) : Prop :=
  s.currentLength = s.logPool.length ∧
    ∀ env : LogEnv, env.Ok → ∀ c tuple, PersistCall.tuple c = .returned tuple →
      (engine.call env s c).1 = .returned .kSuccess

def ReopensEmpty (s : NVMLogEngine) : Session.Op LogEnv → Prop
  | .call _ _ => True
  | .restart => s.logPool = []

/-- The log never exceeds the space it has, which holds at least one record. -/
structure Sized (availableBytes : Nat) (s : NVMLogEngine) : Prop where
  available : s.availableBytes = availableBytes
  fits : s.logPool.length ≤ availableBytes

theorem call_cases {P : NVMLogEngine → Prop} {s : NVMLogEngine} {env : LogEnv}
    {c : PersistCall} (hs : P s) (hstore : ∀ tuple, P (s.updateOnLog env tuple).2) :
    P (engine.call env s c).2 := by
  rw [engine, call_ofStore, persistTuple]
  cases c.tuple with
  | returned tuple => exact hstore tuple
  | threw e => exact hs
  | aborted => exact hs
  | undefined => exact hs
  | running => exact hs

theorem sized_updateOnLog {n : Nat} {s : NVMLogEngine} (h : Sized n s) (env : LogEnv)
    (tuple : Tuple) : Sized n (s.updateOnLog env tuple).2 := by
  obtain ⟨rfl, hfits⟩ := h
  have hcases := stored_cases env s tuple
  generalize s.updateOnLog env tuple = r at hcases
  cases hcases with
  | appended _ hroom => exact ⟨rfl, by rw [length_appended]; exact hroom⟩
  | refused _ _ => exact ⟨rfl, hfits⟩
  | flushedAppended disk _ _ hroom =>
    refine ⟨rfl, ?_⟩
    rw [length_appended]
    show 0 + sizeofTuple ≤ s.availableBytes
    omega
  | flushedRefused disk _ _ _ => exact ⟨rfl, Nat.zero_le _⟩
  | flushThrew e disk _ _ => exact ⟨rfl, hfits⟩

theorem sized_step {n : Nat} (s : NVMLogEngine) (op : Session.Op LogEnv) (h : Sized n s) :
    Sized n (step s op) := by
  cases op with
  | call env c => exact call_cases h fun tuple => sized_updateOnLog h env tuple
  | restart => exact ⟨h.available, h.fits⟩

theorem ready_of_count {n : Nat} {s : NVMLogEngine} (hn : sizeofTuple ≤ n) (h : Sized n s)
    (hcount : s.currentLength = s.logPool.length) : Ready s := by
  refine ⟨hcount, fun env henv c tuple htuple => ?_⟩
  rw [engine, call_ofStore, persistTuple_of_tuple _ htuple]
  exact updateOnLog_kSuccess ⟨hcount, h.available ▸ h.fits⟩ (h.available ▸ hn) henv tuple

theorem ready_step_iff {n : Nat} (hn : sizeofTuple ≤ n) (s : NVMLogEngine)
    (op : Session.Op LogEnv) (h : Sized n s) (hs : Ready s) :
    Ready (step s op) ↔ ReopensEmpty s op := by
  have hsized := sized_step s op h
  cases op with
  | call env c =>
    refine iff_of_true (ready_of_count hn hsized ?_) trivial
    have hsynced : Synced s := ⟨hs.1, h.available ▸ h.fits⟩
    have hcall : Synced (engine.call env s c).2 :=
      call_cases hsynced fun tuple => synced_updateOnLog hsynced env tuple
    exact hcall.count
  | restart =>
    constructor
    · intro hready
      have hcount : 0 = s.logPool.length := hready.1
      exact List.length_eq_zero_iff.mp hcount.symm
    · intro hempty
      refine ready_of_count hn hsized ?_
      show 0 = s.logPool.length
      rw [show s.logPool = [] from hempty, List.length_nil]

/-- **The count and the log agree exactly while only empty logs are reopened.**
    For every history of calls, with any device failures, and of reopens, on a
    log with room for at least one record: in every state the count is the
    number of bytes in the log and every call with working devices returns
    `kSuccess`, exactly when every reopen found the log empty. -/
theorem ready_iff (n : Nat) (hn : sizeofTuple ≤ n) (ops : List (Session.Op LogEnv)) :
    Throughout step Ready (create n) ops ↔ AllSteps step ReopensEmpty (create n) ops := by
  have hsized : Sized n (create n) := ⟨rfl, Nat.zero_le _⟩
  exact throughout_iff_allSteps (L := fun _ _ => True) (fun s op h _ => sized_step s op h)
    (fun s op h hs _ => ready_step_iff hn s op h hs) hsized (ready_of_count hn hsized rfl)
    (allSteps_const.mpr fun _ _ => trivial)

/-- A count that sees room where the log has none: the call fails and changes
    nothing, so every later call fails in the same way. -/
theorem updateOnLog_stuck {s : NVMLogEngine}
    (hroom : s.currentLength + sizeofTuple ≤ s.availableBytes)
    (hfull : s.availableBytes < s.logPool.length + sizeofTuple) (env : LogEnv)
    (tuple : Tuple) : s.updateOnLog env tuple = (.returned .kFail, s) := by
  rw [updateOnLog, if_neg (Nat.not_lt.mpr hroom), appendTuple_eq,
    if_neg fun h => Nat.not_lt.mpr h.2 hfull]

def reopenNonEmpty : List (Session.Op LogEnv) := [.call {} (.delete 1), .restart]

theorem ready_iff_reopenNonEmpty :
    Throughout step Ready (create sizeofTuple) reopenNonEmpty ↔
      AllSteps step ReopensEmpty (create sizeofTuple) reopenNonEmpty :=
  ready_iff sizeofTuple (Nat.le_refl _) _

/-- **A reopened full log is stuck.**  The log has room for one record and holds
    one when it is rebuilt: the count says 0, so the next call does not flush,
    the append does not fit, and the call returns `kFail` and changes nothing,
    although every device works. -/
theorem stuck_reopenNonEmpty :
    ¬Ready (run step (create sizeofTuple) reopenNonEmpty) ∧
      (run step (create sizeofTuple) reopenNonEmpty).currentLength = 0 ∧
      (run step (create sizeofTuple) reopenNonEmpty).logPool.length = sizeofTuple ∧
      engine.call {} (run step (create sizeofTuple) reopenNonEmpty) (.delete 2) =
        (.returned .kFail, run step (create sizeofTuple) reopenNonEmpty) := by
  have hlen : (run step (create sizeofTuple) reopenNonEmpty).logPool.length = sizeofTuple := by
    decide +kernel
  have hcount : (run step (create sizeofTuple) reopenNonEmpty).currentLength = 0 := rfl
  have havail : (run step (create sizeofTuple) reopenNonEmpty).availableBytes = sizeofTuple := by
    decide +kernel
  have hpos : 0 < sizeofTuple := by decide
  refine ⟨fun hready => ?_, hcount, hlen, ?_⟩
  · have h := hready.1
    rw [hcount, hlen] at h
    exact absurd h (by decide)
  · rw [engine, call_ofStore, persistTuple_of_tuple _ (PersistCall.tuple_delete 2)]
    refine updateOnLog_stuck ?_ ?_ _ _
    · rw [hcount, havail, Nat.zero_add]
    · rw [havail, hlen]
      exact Nat.lt_add_of_pos_right hpos

end NvrecYcsb.NvmLog
