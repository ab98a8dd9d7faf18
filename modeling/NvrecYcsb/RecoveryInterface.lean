/-
  NvrecYcsb/RecoveryInterface.lean
  ================================
  **The interface of the recovery engines and the file they flush to**
  (`recovery/recovery_engine.h`, `recovery/os_file.cc`).

  Every device outcome is an input: an engine call takes an environment `ω` that
  says how each device operation of the call turns out.  A call returns how it
  ended together with the engine's state afterwards, also when it ended by an
  exception.

  All three engines turn a call into one tuple and hand that tuple to a store
  function of their own; `RecoveryEngine.ofStore` is that common part.
  A `Session` is an engine together with the tuples it has acknowledged.
-/
import NvrecYcsb.RecoveryDefs

namespace NvrecYcsb.RecoveryInterface

open CppRuntime RecoveryDefs

/-! ### The disk log file -/

/-- How one `write()` turns out: everything accepted, a prefix accepted, or `-1`. -/
inductive WriteOutcome where
  | complete
  | short (n : Nat)
  | error
deriving DecidableEq, Repr

/-- The bytes of `data` that the file accepts. -/
def WriteOutcome.accepted : WriteOutcome → List Byte → List Byte
  | complete, data => data
  | short n, data => data.take n
  | error, _ => []

/-- What `OSFile::Write` returns. -/
def WriteOutcome.count : WriteOutcome → List Byte → Int
  | complete, data => data.length
  | short n, data => (data.take n).length
  | error, _ => -1

/-- `OSFile::Write` on a file opened with `O_APPEND`. -/
def osWrite (outcome : WriteOutcome) (data disk : List Byte) : Int × List Byte :=
  (outcome.count data, disk ++ outcome.accepted data)

@[simp] theorem osWrite_complete (data disk : List Byte) :
    osWrite .complete data disk = ((data.length : Int), disk ++ data) := rfl

/-- Run `f` when the first part returned, pass on every other ending. -/
def andThen {α β σ : Type} (r : Outcome α × σ) (f : α → σ → Outcome β × σ) :
    Outcome β × σ :=
  match r with
  | (.returned a, s) => f a s
  | (.threw e, s) => (.threw e, s)
  | (.aborted, s) => (.aborted, s)
  | (.undefined, s) => (.undefined, s)
  | (.running, s) => (.running, s)

@[simp] theorem andThen_returned {α β σ : Type} (a : α) (s : σ)
    (f : α → σ → Outcome β × σ) : andThen (.returned a, s) f = f a s := rfl

@[simp] theorem andThen_threw {α β σ : Type} (e : Exn) (s : σ)
    (f : α → σ → Outcome β × σ) : andThen (.threw e, s) f = (.threw e, s) := rfl

/-! ### Engines -/

/-- `class RecoveryEngine`: the two calls that change persistent state. -/
structure RecoveryEngine (ω σ : Type) where
  persistUpdate : ω → σ → UInt64 → List KVPair → Outcome RecoveryStatus × σ
  persistDelete : ω → σ → UInt64 → Outcome RecoveryStatus × σ

/-- A call of the interface. -/
inductive PersistCall where
  | update (key : UInt64) (values : List KVPair)
  | delete (key : UInt64)

/-- The tuple a call persists: `DBToRaw(values)` with the key set, or a deleted
    tuple with no field. -/
def PersistCall.tuple : PersistCall → Outcome Tuple
  | update key values => dbToRaw values >>= fun tuple => .returned { tuple with key := key }
  | delete key => .returned { deleted := true, key := key }

def RecoveryEngine.call {ω σ : Type} (engine : RecoveryEngine ω σ) (env : ω) (s : σ) :
    PersistCall → Outcome RecoveryStatus × σ
  | .update key values => engine.persistUpdate env s key values
  | .delete key => engine.persistDelete env s key

def RecoveryEngine.serve {ω σ : Type} (engine : RecoveryEngine ω σ) (s : σ)
    (i : ω × PersistCall) : σ := (engine.call i.1 s i.2).2

section OfStore

variable {ω σ : Type} (store : ω → σ → Tuple → Outcome RecoveryStatus × σ)

/-- Build the tuple of the call, then store it. -/
def persistTuple (env : ω) (s : σ) (call : PersistCall) : Outcome RecoveryStatus × σ :=
  andThen (call.tuple, s) fun tuple s => store env s tuple

/-- The engine whose calls build a tuple and store it. -/
def RecoveryEngine.ofStore : RecoveryEngine ω σ where
  persistUpdate env s key values := persistTuple store env s (.update key values)
  persistDelete env s key := persistTuple store env s (.delete key)

theorem call_ofStore (env : ω) (s : σ) (call : PersistCall) :
    (RecoveryEngine.ofStore store).call env s call = persistTuple store env s call := by
  cases call <;> rfl

theorem persistTuple_of_tuple {env : ω} {s : σ} {call : PersistCall} {tuple : Tuple}
    (h : call.tuple = .returned tuple) :
    persistTuple store env s call = store env s tuple := by
  rw [persistTuple, h, andThen_returned]

theorem serve_of_tuple {env : ω} {s : σ} {call : PersistCall} {tuple : Tuple}
    (h : call.tuple = .returned tuple) :
    (RecoveryEngine.ofStore store).serve s (env, call) = (store env s tuple).2 := by
  rw [RecoveryEngine.serve, call_ofStore, persistTuple_of_tuple store h]

end OfStore

theorem PersistCall.tuple_delete (key : UInt64) :
    (PersistCall.delete key).tuple = .returned { deleted := true, key := key } := rfl

/-! ### Sessions -/

/-- An engine and the tuples of the calls that returned `kSuccess`, oldest first. -/
structure Session (σ : Type) where
  engine : σ
  acked : List Tuple

namespace Session

variable {ω σ : Type} (store : ω → σ → Tuple → Outcome RecoveryStatus × σ)

def record (s : Session σ) (tuple : Tuple) (r : Outcome RecoveryStatus × σ) : Session σ :=
  ⟨r.2, if r.1 = .returned .kSuccess then s.acked ++ [tuple] else s.acked⟩

/-- One call.  A call whose tuple cannot be built leaves the engine alone. -/
def call (s : Session σ) (i : ω × PersistCall) : Session σ :=
  match i.2.tuple with
  | .returned tuple => s.record tuple (store i.1 s.engine tuple)
  | _ => s

/-- An operation on the engine: a call, or closing it and building it again. -/
inductive Op (ω : Type) where
  | call (env : ω) (call : PersistCall)
  | restart

def step (restart : σ → σ) (s : Session σ) : Op ω → Session σ
  | .call env c => s.call store (env, c)
  | .restart => ⟨restart s.engine, s.acked⟩

theorem call_of_tuple (s : Session σ) (env : ω) {c : PersistCall} {tuple : Tuple}
    (h : c.tuple = .returned tuple) :
    s.call store (env, c) = s.record tuple (store env s.engine tuple) := by
  rw [call, h]

theorem call_induction {P : Session σ → Prop} {s : Session σ} {env : ω} {c : PersistCall}
    (hs : P s) (hstore : ∀ tuple, c.tuple = .returned tuple →
      P (s.record tuple (store env s.engine tuple))) :
    P (s.call store (env, c)) := by
  rw [call]
  split
  · exact hstore _ ‹_›
  · exact hs

@[simp] theorem record_engine (s : Session σ) (tuple : Tuple)
    (r : Outcome RecoveryStatus × σ) : (s.record tuple r).engine = r.2 := rfl

theorem record_acked_success (s : Session σ) (tuple : Tuple) (e : σ) :
    (s.record tuple (.returned .kSuccess, e)).acked = s.acked ++ [tuple] := rfl

theorem record_acked_of_ne (s : Session σ) (tuple : Tuple) {r : Outcome RecoveryStatus × σ}
    (h : r.1 ≠ .returned .kSuccess) : (s.record tuple r).acked = s.acked := by
  rw [record, if_neg h]

end Session

end NvrecYcsb.RecoveryInterface
