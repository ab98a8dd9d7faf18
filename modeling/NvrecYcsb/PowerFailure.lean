/-
  NvrecYcsb/PowerFailure.lean
  ===========================
  **What a power failure can leave behind.**

  An operation is a program of device calls.  A failure cuts it off between two
  calls, so what it can leave is every memory the program passes through
  (`Reaches`).  Bytes written to a file are kept for certain once the file was
  synced; of those written since, a failure leaves a prefix
  (`SyncedFile.survives`), which may end inside a frame.

  * `CrashSafe`: a crash condition holds of each of these memories and a
    postcondition of the last one; proved call by call, it bounds what a failure
    leaves (`CrashSafe.of_reaches`) and what a run ends in (`CrashSafe.exec`);
  * `readAll_survives`: the frames that can be read back are the synced ones and
    some of the others, in order.
-/
import NvrecYcsb.AtomicCalls
import NvrecYcsb.Framing

namespace NvrecYcsb.PowerFailure

open AtomicCalls Framing

/-! ### Programs cut off -/

section Programs

variable {C : Type → Type} {σ α : Type} (handle : Handler C σ)

/-- The memories the program passes through, both ends included. -/
inductive Reaches : Prog C α → σ → σ → Prop
  | here {prog : Prog C α} {mem : σ} : Reaches prog mem mem
  | call {β : Type} {c : C β} {next : β → Prog C α} {mem mem' image : σ} {b : β}
      (hcall : handle β c mem = some (b, mem')) (hnext : Reaches (next b) mem' image) :
      Reaches (.call c next) mem image

/-- `crash` holds in every memory the program passes through, `post` at its end, and
    no call is stuck. -/
def CrashSafe (crash : σ → Prop) (post : α → σ → Prop) : Prog C α → σ → Prop
  | .ret a, mem => crash mem ∧ post a mem
  | .call c next, mem => crash mem ∧
      ∃ r, handle _ c mem = some r ∧ CrashSafe crash post (next r.1) r.2

section CrashSafe

variable {handle}
variable {crash : σ → Prop} {post : α → σ → Prop} {prog : Prog C α} {mem image : σ}

theorem crashSafe_ret {a : α} (hcrash : crash mem) (hpost : post a mem) :
    CrashSafe handle crash post (.ret a) mem := ⟨hcrash, hpost⟩

theorem crashSafe_call {β : Type} {c : C β} {next : β → Prog C α} {b : β} {mem' : σ}
    (hcrash : crash mem) (hcall : handle β c mem = some (b, mem'))
    (hnext : CrashSafe handle crash post (next b) mem') :
    CrashSafe handle crash post (.call c next) mem :=
  ⟨hcrash, (b, mem'), hcall, hnext⟩

theorem CrashSafe.here (h : CrashSafe handle crash post prog mem) : crash mem := by
  cases prog with
  | ret a => exact h.1
  | call c next => exact h.1

/-- **What a failure leaves meets the crash condition.** -/
theorem CrashSafe.of_reaches (h : CrashSafe handle crash post prog mem)
    (himage : Reaches handle prog mem image) : crash image := by
  induction himage with
  | here => exact h.here
  | call hcall _ ih =>
    obtain ⟨-, r, hr, hnext⟩ := h
    rw [hcall] at hr
    cases hr
    exact ih hnext

/-- **What an uninterrupted run ends in meets the postcondition.** -/
theorem CrashSafe.exec (h : CrashSafe handle crash post prog mem) :
    ∃ a mem', prog.exec handle mem = some (a, mem') ∧ post a mem' := by
  induction prog generalizing mem with
  | ret a => exact ⟨a, mem, rfl, h.2⟩
  | call c next ih =>
    obtain ⟨-, r, hr, hnext⟩ := h
    obtain ⟨a, mem', hexec, hpost⟩ := ih r.1 hnext
    exact ⟨a, mem', by rw [exec_call handle hr, hexec], hpost⟩

end CrashSafe

end Programs

/-! ### Files with a volatile end -/

/-- The bytes of a file that are kept for certain, and those written since. -/
structure SyncedFile (β : Type*) where
  durable : List β := []
  pending : List β := []

namespace SyncedFile

variable {β τ : Type*}

def contents (f : SyncedFile β) : List β := f.durable ++ f.pending

def write (f : SyncedFile β) (bytes : List β) : SyncedFile β :=
  { f with pending := f.pending ++ bytes }

def sync (f : SyncedFile β) : SyncedFile β := ⟨f.contents, []⟩

/-- What is left of the file when `n` of the bytes that were not synced are. -/
def survives (f : SyncedFile β) (n : Nat) : List β := f.durable ++ f.pending.take n

@[simp] theorem contents_write (f : SyncedFile β) (bytes : List β) :
    (f.write bytes).contents = f.contents ++ bytes := by
  simp [contents, write]

@[simp] theorem contents_sync (f : SyncedFile β) : f.sync.contents = f.contents := by
  simp [contents, sync]

end SyncedFile

/-! ### Frames cut off -/

namespace FixedCode

variable {β τ : Type*} (c : FixedCode τ β)

/-- A piece shorter than a frame, at the end of a stream, is not read. -/
theorem readAll_writeAll_append (ts : List τ) {tail : List β} (h : tail.length < c.width) :
    c.readAll (c.writeAll ts ++ tail) = ts := by
  induction ts with
  | nil =>
    cases tail with
    | nil => rfl
    | cons b bs =>
      have hcut : cut c.width (b :: bs) = [b :: bs] := by
        have hdrop : (b :: bs).drop c.width = [] := List.drop_eq_nil_of_le h.le
        have htake : (b :: bs).take c.width = b :: bs := List.take_of_length_le h.le
        rw [cut, List.length_cons, cutFuel, hdrop, htake]
        cases bs <;> rfl
      have hshort : (b :: bs).length ≠ c.width := h.ne
      simp only [FixedCode.readAll, FixedCode.writeAll_nil, List.nil_append, hcut]
      rw [List.filter_cons_of_neg (by simpa using hshort)]
      rfl
  | cons t ts ih =>
    rw [FixedCode.readAll] at ih ⊢
    rw [FixedCode.writeAll_cons, List.append_assoc,
      cut_append c.width_pos (c.length_encode t), List.filter_cons_of_pos (by simp [c.length_encode]),
      List.map_cons, c.decode_encode, ih]

/-- A stream of frames cut anywhere: the frames before the cut are read. -/
theorem exists_take_writeAll (ts : List τ) (n : Nat) :
    ∃ k tail, (c.writeAll ts).take n = c.writeAll (ts.take k) ++ tail ∧ tail.length < c.width := by
  induction ts generalizing n with
  | nil => exact ⟨0, [], by simp, c.width_pos⟩
  | cons t ts ih =>
    by_cases hn : n < c.width
    · refine ⟨0, (c.encode t).take n, ?_, ?_⟩
      · rw [FixedCode.writeAll_cons, List.take_append_of_le_length (by rw [c.length_encode]; omega)]
        rfl
      · rw [List.length_take, c.length_encode]
        omega
    · obtain ⟨k, tail, htake, htail⟩ := ih (n - c.width)
      refine ⟨k + 1, tail, ?_, htail⟩
      rw [FixedCode.writeAll_cons, List.take_append, c.length_encode,
        List.take_of_length_le (by rw [c.length_encode]; omega), htake, List.take_succ_cons,
        FixedCode.writeAll_cons, List.append_assoc]

end FixedCode

/-- **What can be read back of a file of frames**: the synced ones, then some of the
    others. -/
theorem readAll_survives {β τ : Type*} (c : FixedCode τ β) {f : SyncedFile β} {ds ps : List τ}
    (hdurable : f.durable = c.writeAll ds) (hpending : f.pending = c.writeAll ps) (n : Nat) :
    ∃ k, c.readAll (f.survives n) = ds ++ ps.take k := by
  obtain ⟨k, tail, htake, htail⟩ := FixedCode.exists_take_writeAll c ps n
  refine ⟨k, ?_⟩
  rw [SyncedFile.survives, hdurable, hpending, htake, ← List.append_assoc,
    ← FixedCode.writeAll_append]
  exact FixedCode.readAll_writeAll_append c _ htail

end NvrecYcsb.PowerFailure
