/-
  NvrecYcsb/NvmLogCrash.lean
  ==========================
  **The log engine when the power fails** (`recovery/nvmlog_engine.cc`,
  `recovery/os_file.cc`).

  `UpdateOnLog` as the program of its device calls, over a log that keeps what was
  appended and a disk log whose bytes are kept for certain only after `Sync`.  The
  program run to its end is the store of `NvmLog` (`exec_updateOnLog`).

  A flush writes the records of the log to the disk log, syncs it and rewinds the
  log, so a failure in between leaves records in both places, the last of them
  perhaps in part.  Reading the disk log and then the log gives what the
  acknowledged calls built, or that and the call that was cut off
  (`recovers_throughout`).  A flush that a failing write ended is no exception, as
  long as no write takes part of a record.
-/
import NvrecYcsb.NvmLog
import NvrecYcsb.PowerFailure
import NvrecYcsb.Rereading

namespace NvrecYcsb.NvmLogCrash

open CppRuntime RecoveryDefs RecoveryInterface Framing Runs AtomicCalls PowerFailure Rereading
  NvmLog

/-! ### Devices -/

inductive LogCall : Type → Type
  | openDisk (ok : Bool) : LogCall Bool                       -- OSFile::OSFile
  | walk : LogCall (List Byte)                                -- pmemlog_walk
  | write (outcome : WriteOutcome) (data : List Byte) : LogCall Int
  | sync : LogCall Unit
  | rewind : LogCall Unit                                     -- pmemlog_rewind
  | append (ok : Bool) (data : List Byte) : LogCall Bool      -- pmemlog_append

/-- The bytes of the log, the space it has, and the disk log. -/
structure LogDevices where
  logPool : List Byte
  availableBytes : Nat
  diskLog : SyncedFile Byte

def handle : Handler LogCall LogDevices
  | _, .openDisk ok, d => some (ok, d)
  | _, .walk, d => some (d.logPool, d)
  | _, .write outcome data, d =>
    some (outcome.count data, { d with diskLog := d.diskLog.write (outcome.accepted data) })
  | _, .sync, d => some ((), { d with diskLog := d.diskLog.sync })
  | _, .rewind, d => some ((), { d with logPool := [] })
  | _, .append ok data, d =>
    if ok = true ∧ d.logPool.length + data.length ≤ d.availableBytes then
      some (true, { d with logPool := d.logPool ++ data })
    else some (false, d)

/-! ### `UpdateOnLog` -/

/-- What a call returns, and `current_length_` after it. -/
abbrev Result := Outcome RecoveryStatus × Nat

section UpdateOnLog

variable (env : LogEnv) (currentLength : Nat) (tuple : Tuple)

def appendProgram (currentLength : Nat) : Prog LogCall Result :=
  .call (.append env.append tuple.bytes) fun ok =>
    .ret (if ok then (.returned .kSuccess, currentLength + sizeofTuple)
      else (.returned .kFail, currentLength))

/-- The callback of `pmemlog_walk`, piece by piece, and what follows the walk. -/
def walkProgram (next : Prog LogCall Result) : Nat → List (List Byte) → Prog LogCall Result
  | _, [] => next
  | i, piece :: pieces =>
    .call (.write (env.diskWrite i) piece) fun count =>
      if count = piece.length then walkProgram next (i + 1) pieces
      else .ret (.threw (.runtimeError "Write error!"), currentLength)

/-- `FlushToDisk`, and what follows it. -/
def flushProgram (next : Prog LogCall Result) : Prog LogCall Result :=
  .call (.openDisk env.diskOpen) fun ok =>
    if ok then
      .call .walk fun log =>
        walkProgram env currentLength (.call .sync fun _ => .call .rewind fun _ => next) 0
          (cut sizeofTuple log)
    else .ret (.threw (.runtimeError "File Open Failed"), currentLength)

def updateOnLog (availableBytes : Nat) : Prog LogCall Result :=
  if currentLength + sizeofTuple > availableBytes then
    flushProgram env currentLength (appendProgram env tuple 0)
  else appendProgram env tuple currentLength

end UpdateOnLog

/-! ### The engine -/

/-- `current_length_`, which a power failure loses, and the devices. -/
structure Powered where
  currentLength : Nat
  devices : LogDevices

namespace Powered

/-- `BuildEngine` when the log is new and there is no disk log. -/
def create (availableBytes : Nat) : Powered := ⟨0, ⟨[], availableBytes, {}⟩⟩

/-- The device calls of a call that stores the tuple. -/
def program (s : Powered) (env : LogEnv) (tuple : Tuple) : Prog LogCall Result :=
  updateOnLog env s.currentLength tuple s.devices.availableBytes

/-- The engine as `NvmLog` has it: the contents of the devices. -/
def engine (s : Powered) : NVMLogEngine where
  logPool := s.devices.logPool
  currentLength := s.currentLength
  availableBytes := s.devices.availableBytes
  diskLog := s.devices.diskLog.contents

end Powered

/-- A store whose power does not fail. -/
def store (env : LogEnv) (s : Powered) (tuple : Tuple) : Outcome RecoveryStatus × Powered :=
  match (s.program env tuple).exec handle s.devices with
  | some ((out, currentLength), devices) => (out, ⟨currentLength, devices⟩)
  | none => (.undefined, s)

/-! ### The programs refine the functions -/

section Refinement

variable {env : LogEnv} {tuple : Tuple}

/-- What a program that ends in `r` and `d` makes of an engine. -/
def ended (r : Result) (d : LogDevices) : Outcome RecoveryStatus × NVMLogEngine :=
  (r.1, Powered.engine ⟨r.2, d⟩)

theorem exec_appendProgram (env : LogEnv) (tuple : Tuple) (n : Nat) (d : LogDevices) :
    ∃ r d', (appendProgram env tuple n).exec handle d = some (r, d') ∧
      ended r d' = (Powered.engine ⟨n, d⟩).appendTuple env tuple := by
  by_cases h : env.append = true ∧ d.logPool.length + tuple.bytes.length ≤ d.availableBytes
  · refine ⟨(.returned .kSuccess, n + sizeofTuple), { d with logPool := d.logPool ++ tuple.bytes },
      ?_, ?_⟩
    · simp [appendProgram, Prog.exec, handle, h]
    · simp [ended, Powered.engine, NVMLogEngine.appendTuple, NVMLogEngine.pmemlogAppend, h]
  · refine ⟨(.returned .kFail, n), d, ?_, ?_⟩
    · simp [appendProgram, Prog.exec, handle, h]
    · simp [ended, Powered.engine, NVMLogEngine.appendTuple, NVMLogEngine.pmemlogAppend, h]

/-- The walk of the program writes what the walk of the function does. -/
theorem exec_walkProgram (env : LogEnv) (n : Nat) (next : Prog LogCall Result) (i : Nat)
    (pieces : List (List Byte)) (d : LogDevices) :
    (∃ d', NVMLogEngine.walkPieces env i pieces d.diskLog.contents =
        (.returned (), d'.diskLog.contents) ∧ d'.logPool = d.logPool ∧
        d'.availableBytes = d.availableBytes ∧
        (walkProgram env n next i pieces).exec handle d = next.exec handle d') ∨
    ∃ e d', NVMLogEngine.walkPieces env i pieces d.diskLog.contents =
        (.threw e, d'.diskLog.contents) ∧ d'.logPool = d.logPool ∧
        d'.availableBytes = d.availableBytes ∧
        (walkProgram env n next i pieces).exec handle d = some ((.threw e, n), d') := by
  induction pieces generalizing i d with
  | nil => exact .inl ⟨d, rfl, rfl, rfl, rfl⟩
  | cons piece pieces ih =>
    let d₁ := { d with diskLog := d.diskLog.write ((env.diskWrite i).accepted piece) }
    have hcontents : d₁.diskLog.contents =
        d.diskLog.contents ++ (env.diskWrite i).accepted piece := by simp [d₁]
    have hexec : (walkProgram env n next i (piece :: pieces)).exec handle d =
        (if (env.diskWrite i).count piece = piece.length then walkProgram env n next (i + 1) pieces
          else .ret (.threw (.runtimeError "Write error!"), n)).exec handle d₁ := rfl
    rw [hexec, NVMLogEngine.walkPieces, osWrite, ← hcontents]
    by_cases hcount : (env.diskWrite i).count piece = piece.length
    · simp only [hcount, if_true]
      exact ih (i + 1) d₁
    · simp only [hcount, if_false]
      exact .inr ⟨_, d₁, rfl, rfl, rfl, rfl⟩

theorem flushToDisk_of_walk {e : NVMLogEngine} {out : Outcome Unit} {disk : List Byte}
    (hopen : env.diskOpen = true)
    (hwalk : NVMLogEngine.walkPieces env 0 (cut sizeofTuple e.logPool) e.diskLog = (out, disk)) :
    e.flushToDisk env = RecoveryInterface.andThen (out, { e with diskLog := disk }) fun _ e =>
      (.returned (), { e with logPool := [], currentLength := 0 }) := by
  rw [NVMLogEngine.flushToDisk, if_pos hopen, hwalk]

/-- **The device calls of a store do what the store does**, to their last call. -/
theorem store_engine (env : LogEnv) (s : Powered) (tuple : Tuple) :
    ((store env s tuple).1, (store env s tuple).2.engine) = logStore env s.engine tuple := by
  have hended : ∀ {r d'}, (s.program env tuple).exec handle s.devices = some (r, d') →
      ((store env s tuple).1, (store env s tuple).2.engine) = ended r d' := by
    intro r d' h
    rw [store, h]
    rfl
  by_cases hfull : s.currentLength + sizeofTuple > s.devices.availableBytes
  · have hprogram : s.program env tuple =
        flushProgram env s.currentLength (appendProgram env tuple 0) := by
      rw [Powered.program, updateOnLog, if_pos hfull]
    have hstore : logStore env s.engine tuple = RecoveryInterface.andThen
        (s.engine.flushToDisk env) fun _ e => e.appendTuple env tuple := by
      rw [logStore, NVMLogEngine.updateOnLog]
      exact if_pos hfull
    rw [hprogram] at hended
    rw [hstore]
    rcases Bool.eq_false_or_eq_true env.diskOpen with hopen | hclosed
    · have hexec : (flushProgram env s.currentLength (appendProgram env tuple 0)).exec handle
          s.devices = (walkProgram env s.currentLength (.call .sync fun _ => .call .rewind fun _ =>
            appendProgram env tuple 0) 0 (cut sizeofTuple s.devices.logPool)).exec handle
              s.devices := by
        rw [flushProgram, hopen]
        rfl
      rw [hexec] at hended
      rcases exec_walkProgram env s.currentLength
          (.call .sync fun _ => .call .rewind fun _ => appendProgram env tuple 0) 0
          (cut sizeofTuple s.devices.logPool) s.devices with
        ⟨d, hwalk, hlog, hsize, hend⟩ | ⟨e, d, hwalk, hlog, hsize, hend⟩
      · rw [hend] at hended
        obtain ⟨r, d', hrun, heq⟩ := exec_appendProgram env tuple 0
          { d with diskLog := d.diskLog.sync, logPool := [] }
        rw [hended hrun, heq, flushToDisk_of_walk hopen hwalk]
        simp [Powered.engine, hsize]
      · rw [hended hend, flushToDisk_of_walk hopen hwalk]
        simp [ended, Powered.engine, hlog, hsize]
    · have hexec : (flushProgram env s.currentLength (appendProgram env tuple 0)).exec handle
          s.devices = some ((.threw (.runtimeError "File Open Failed"), s.currentLength),
            s.devices) := by
        rw [flushProgram, hclosed]
        rfl
      rw [hended hexec, NVMLogEngine.flushToDisk, hclosed]
      rfl
  · have hprogram : s.program env tuple = appendProgram env tuple s.currentLength := by
      rw [Powered.program, updateOnLog, if_neg hfull]
    have hstore : logStore env s.engine tuple = s.engine.appendTuple env tuple := by
      rw [logStore, NVMLogEngine.updateOnLog]
      exact if_neg hfull
    obtain ⟨r, d', hrun, heq⟩ := exec_appendProgram env tuple s.currentLength
      s.devices
    rw [hprogram] at hended
    rw [hended hrun, heq, hstore]

end Refinement

/-! ### What the devices hold -/

/-- The records synced on disk, those on disk since, and those in the log.  What is
    on disk since stands in the log as well, and the others rebuild what `ts` does. -/
structure Holds (d : LogDevices) (ds ps ns ts : List Tuple) : Prop where
  durable : d.diskLog.durable = tupleCode.writeAll ds
  pending : d.diskLog.pending = tupleCode.writeAll ps
  log : d.logPool = tupleCode.writeAll ns
  moved : ps ⊆ ns
  rebuilds : SameReplay Tuple.key (ds ++ ns) ts

def Recoverable (d : LogDevices) (ts : List Tuple) : Prop := ∃ ds ps ns, Holds d ds ps ns ts

/-- What a reader finds when `n` of the bytes that were not synced are left: the disk
    log, then the log. -/
def LogDevices.readBack (d : LogDevices) (n : Nat) : List Tuple :=
  tupleCode.readAll (d.diskLog.survives n) ++ tupleCode.readAll d.logPool

def Recovers (d : LogDevices) (ts : List Tuple) : Prop :=
  ∀ n, SameReplay Tuple.key (d.readBack n) ts

theorem Recoverable.recovers {d : LogDevices} {ts : List Tuple} (h : Recoverable d ts) :
    Recovers d ts := by
  obtain ⟨ds, ps, ns, h⟩ := h
  intro n
  obtain ⟨k, hdisk⟩ := readAll_survives tupleCode h.durable h.pending n
  have hpart : ps.take k ⊆ ns := fun t ht => h.moved (List.mem_of_mem_take ht)
  rw [LogDevices.readBack, hdisk, h.log, FixedCode.readAll_writeAll]
  exact (SameReplay.reread hpart ds).trans h.rebuilds

section Steps

variable {d : LogDevices} {ds ps ns ts : List Tuple}

theorem Holds.recoverable (h : Holds d ds ps ns ts) : Recoverable d ts := ⟨ds, ps, ns, h⟩

/-- A record of the log is written to the disk log. -/
theorem Holds.write (h : Holds d ds ps ns ts) {t : Tuple} (ht : t ∈ ns) :
    Holds { d with diskLog := d.diskLog.write t.bytes } ds (ps ++ [t]) ns ts where
  durable := h.durable
  pending := by
    show d.diskLog.pending ++ t.bytes = _
    simp [h.pending, tupleCode]
  log := h.log
  moved := by
    intro u hu
    rcases List.mem_append.mp hu with hu | hu
    · exact h.moved hu
    · rw [List.mem_singleton.mp hu]
      exact ht
  rebuilds := h.rebuilds

theorem Holds.sync (h : Holds d ds ps ns ts) :
    Holds { d with diskLog := d.diskLog.sync } (ds ++ ps) [] ns ts where
  durable := by
    show d.diskLog.durable ++ d.diskLog.pending = _
    simp [h.durable, h.pending]
  pending := rfl
  log := h.log
  moved := List.nil_subset ns
  rebuilds := (SameReplay.reread h.moved ds).trans h.rebuilds

/-- The log is rewound once all of it is on disk. -/
theorem Holds.rewind (h : Holds d (ds ++ ns) [] ns ts) :
    Holds { d with logPool := [] } (ds ++ ns) [] [] ts where
  durable := h.durable
  pending := h.pending
  log := rfl
  moved := List.Subset.refl []
  rebuilds := by
    have hreread : SameReplay Tuple.key (ds ++ ns ++ ns) (ds ++ ns) :=
      SameReplay.reread (List.Subset.refl ns) ds
    rw [List.append_nil]
    exact hreread.symm.trans h.rebuilds

theorem Holds.append (h : Holds d ds ps ns ts) (t : Tuple) :
    Holds { d with logPool := d.logPool ++ t.bytes } ds ps (ns ++ [t]) (ts ++ [t]) where
  durable := h.durable
  pending := h.pending
  log := by
    show d.logPool ++ t.bytes = _
    simp [h.log, tupleCode]
  moved := fun u hu => List.mem_append_left [t] (h.moved hu)
  rebuilds := by
    rw [← List.append_assoc]
    exact h.rebuilds.append_right [t]

end Steps

/-! ### A store cut off -/

/-- The write takes the whole of a record, or nothing of it. -/
def WholeRecord (outcome : WriteOutcome) : Prop :=
  ∀ data : List Byte, data.length = sizeofTuple →
    outcome.accepted data = data ∨ outcome.accepted data = []

/-- What a failure during the call may leave. -/
def CutOff (ts : List Tuple) (tuple : Tuple) (d : LogDevices) : Prop :=
  Recoverable d ts ∨ Recoverable d (ts ++ [tuple])

/-- What the call leaves when it ends. -/
def Kept (ts : List Tuple) (tuple : Tuple) (r : Result) (d : LogDevices) : Prop :=
  Recoverable d (NVMLogEngine.ackedAfter ts tuple r.1)

theorem count_eq_iff {outcome : WriteOutcome} {data : List Byte} (hdata : data ≠ [])
    (hwhole : outcome.accepted data = data ∨ outcome.accepted data = []) :
    outcome.count data = data.length ↔ outcome.accepted data = data := by
  have hpos : 0 < data.length := List.length_pos_iff.mpr hdata
  cases outcome with
  | complete => simp [WriteOutcome.count, WriteOutcome.accepted]
  | error =>
    simp only [WriteOutcome.count, WriteOutcome.accepted]
    constructor
    · intro h
      omega
    · intro h
      exact absurd h.symm hdata
  | short n =>
    simp only [WriteOutcome.count, WriteOutcome.accepted] at hwhole ⊢
    constructor
    · intro h
      rcases hwhole with hall | hnone
      · exact hall
      · rw [hnone] at h
        simp at h
        omega
    · intro h
      rw [h]

section CutOff

variable {env : LogEnv} {tuple : Tuple} {d : LogDevices} {ds ps ns ts : List Tuple}

theorem crashSafe_appendProgram (h : Holds d ds ps ns ts) (n : Nat) :
    CrashSafe handle (CutOff ts tuple) (Kept ts tuple) (appendProgram env tuple n) d := by
  by_cases hfits : env.append = true ∧ d.logPool.length + tuple.bytes.length ≤ d.availableBytes
  · refine crashSafe_call (b := true) (.inl h.recoverable) (by rw [handle, if_pos hfits]) ?_
    exact crashSafe_ret (.inr (h.append tuple).recoverable) (h.append tuple).recoverable
  · refine crashSafe_call (b := false) (.inl h.recoverable) (by rw [handle, if_neg hfits]) ?_
    exact crashSafe_ret (.inl h.recoverable) h.recoverable

/-- The walk: what is still to be written stands in the log. -/
theorem crashSafe_walkProgram (hwhole : ∀ i, WholeRecord (env.diskWrite i)) {n : Nat}
    {next : Prog LogCall Result} {rest : List Tuple} (hrest : rest ⊆ ns)
    (hnext : ∀ d', Holds d' ds (ps ++ rest) ns ts →
      CrashSafe handle (CutOff ts tuple) (Kept ts tuple) next d')
    (h : Holds d ds ps ns ts) (i : Nat) :
    CrashSafe handle (CutOff ts tuple) (Kept ts tuple)
      (walkProgram env n next i (rest.map Tuple.bytes)) d := by
  induction rest generalizing i d ps with
  | nil =>
    rw [List.append_nil] at hnext
    exact hnext d h
  | cons t rest ih =>
    have hne : t.bytes ≠ [] := by simp [Tuple.bytes]
    have hrecord := hwhole i t.bytes t.length_bytes
    refine crashSafe_call (.inl h.recoverable) rfl ?_
    by_cases htaken : (env.diskWrite i).accepted t.bytes = t.bytes
    · have hcount := (count_eq_iff hne hrecord).mpr htaken
      rw [if_pos hcount, htaken]
      refine ih (fun u hu => hrest (List.mem_cons_of_mem t hu)) ?_ (h.write (hrest (by simp))) (i + 1)
      intro d' h'
      apply hnext d'
      simpa using h'
    · -- the flush is given up; the record was not taken
      have hcount := mt (count_eq_iff hne hrecord).mp htaken
      have hnone := hrecord.resolve_left htaken
      have hsame : { d with diskLog := d.diskLog.write [] } = d := by simp [SyncedFile.write]
      rw [if_neg hcount, hnone, hsame]
      exact crashSafe_ret (.inl h.recoverable) h.recoverable

theorem crashSafe_updateOnLog (tuple : Tuple) (hwhole : ∀ i, WholeRecord (env.diskWrite i))
    (h : Recoverable d ts) (n : Nat) :
    CrashSafe handle (CutOff ts tuple) (Kept ts tuple)
      (updateOnLog env n tuple d.availableBytes) d := by
  obtain ⟨ds, ps, ns, h⟩ := h
  rw [updateOnLog]
  split_ifs with hfull
  · refine crashSafe_call (.inl h.recoverable) rfl ?_
    split_ifs with hopen
    · refine crashSafe_call (.inl h.recoverable) rfl ?_
      have hcut : cut sizeofTuple d.logPool = ns.map Tuple.bytes := by
        rw [h.log]
        exact tupleCode.cut_writeAll ns
      rw [hcut]
      refine crashSafe_walkProgram hwhole (List.Subset.refl ns) ?_ h 0
      intro d' h'
      refine crashSafe_call (.inl h'.recoverable) rfl ?_
      have hsynced := h'.sync
      rw [← List.append_assoc] at hsynced
      refine crashSafe_call (.inl hsynced.recoverable) rfl ?_
      exact crashSafe_appendProgram hsynced.rewind 0
    · exact crashSafe_ret (.inl h.recoverable) h.recoverable
  · exact crashSafe_appendProgram h n

end CutOff

/-! ### Sessions -/

/-- After the calls of the session, and wherever a failure cuts off the next one, what
    is read back rebuilds what was acknowledged, or that and the call in flight. -/
structure Recovered (s : Session Powered) : Prop where
  quiet : Recovers s.engine.devices s.acked
  cutOff : ∀ (env : LogEnv) (tuple : Tuple) (image : LogDevices),
    (∀ i, WholeRecord (env.diskWrite i)) →
    Reaches handle (s.engine.program env tuple) s.engine.devices image →
    Recovers image s.acked ∨ Recovers image (s.acked ++ [tuple])

theorem recovered_of_recoverable {s : Session Powered}
    (h : Recoverable s.engine.devices s.acked) : Recovered s where
  quiet := h.recovers
  cutOff env tuple image hwhole hreaches := by
    have hcut := (crashSafe_updateOnLog tuple hwhole h s.engine.currentLength).of_reaches
      hreaches
    exact hcut.imp Recoverable.recovers Recoverable.recovers

theorem recoverable_call {s : Session Powered} (h : Recoverable s.engine.devices s.acked)
    {env : LogEnv} (hwhole : ∀ i, WholeRecord (env.diskWrite i)) (c : PersistCall) :
    Recoverable (s.call store (env, c)).engine.devices (s.call store (env, c)).acked := by
  apply Session.call_induction store (P := fun s => Recoverable s.engine.devices s.acked) h
  intro tuple _
  obtain ⟨r, d', hexec, hkept⟩ :=
    (crashSafe_updateOnLog tuple hwhole h s.engine.currentLength).exec
  have hstore : store env s.engine tuple = (r.1, ⟨r.2, d'⟩) := by
    rw [store, Powered.program, hexec]
  rw [hstore]
  exact hkept

theorem recoverable_create (availableBytes : Nat) :
    Recoverable (Powered.create availableBytes).devices [] :=
  ⟨[], [], [], ⟨rfl, rfl, rfl, List.Subset.refl [], SameReplay.refl []⟩⟩

/-- **The log engine survives a power failure.**  For a log of any size, every
    sequence of calls, and every pattern of failing opens, appends and writes in
    which no write takes a part of a record, the log staying usable after an
    exception out of its walk: wherever a failure falls, between two calls or
    between two device calls of one, and whatever it leaves of the bytes not synced,
    the disk log and then the log rebuild exactly what was acknowledged, or that and
    the call in flight. -/
theorem recovers_throughout (availableBytes : Nat) (calls : List (LogEnv × PersistCall))
    (hwhole : ∀ i ∈ calls, ∀ j, WholeRecord (i.1.diskWrite j)) :
    Throughout (Session.call store) Recovered ⟨Powered.create availableBytes, []⟩ calls := by
  have hrun : Throughout (Session.call store)
      (fun s : Session Powered => Recoverable s.engine.devices s.acked)
      ⟨Powered.create availableBytes, []⟩ calls := by
    apply throughout_of_allSteps
      (P := fun _ (i : LogEnv × PersistCall) => ∀ j, WholeRecord (i.1.diskWrite j))
    · intro s i hs hi
      exact recoverable_call hs hi i.2
    · exact recoverable_create availableBytes
    · exact allSteps_const.mpr hwhole
  exact hrun.imp fun _ => recovered_of_recoverable

theorem wholeRecord_complete : WholeRecord .complete := fun _ _ => .inl rfl

theorem wholeRecord_error : WholeRecord .error := fun _ _ => .inr rfl

/-- Calls on a log for one record.  The flush of the second finds no file to write to,
    the third flushes again, and the flush of the last is ended by a write that fails. -/
def failedFlushes : List (LogEnv × PersistCall) :=
  [({}, .delete 1), ({ diskOpen := false }, .delete 2), ({}, .delete 3),
    ({ diskWrite := fun _ => .error }, .delete 4)]

theorem recovers_throughout_failedFlushes :
    Throughout (Session.call store) Recovered ⟨Powered.create sizeofTuple, []⟩ failedFlushes := by
  apply recovers_throughout
  intro i hi j
  simp only [failedFlushes, List.mem_cons, List.not_mem_nil, or_false] at hi
  rcases hi with rfl | rfl | rfl | rfl
  exacts [wholeRecord_complete, wholeRecord_complete, wholeRecord_complete, wholeRecord_error]

end NvrecYcsb.NvmLogCrash
