/-
  NvrecYcsb/UndoLog.lean
  ======================
  **Transactions that undo what they wrote.**

  A memory gives each location a value.  A transaction keeps with it a log of what
  its stores overwrote, the latest first, and undoing the log gives back the memory
  in which it began.  A transaction runs a program of calls: it commits when the
  program returns, and it aborts, undoing its log, when a call throws or when the
  calls it was granted are used up.

  * `rollback_store`, `rollback_begin`: the log leads back to the beginning;
  * `execTx_cases`: all that a transaction can come to.
-/
import NvrecYcsb.AtomicCalls

namespace NvrecYcsb.UndoLog

open AtomicCalls

variable {L : Type} [DecidableEq L] {V : L → Type}

/-- A memory that a transaction writes, and what its stores overwrote. -/
structure Tx (V : L → Type) where
  mem : ∀ l, V l
  log : List (Σ l, V l) := []

namespace Tx

def begin (mem : ∀ l, V l) : Tx V := { mem := mem }

def store (tx : Tx V) (l : L) (v : V l) : Tx V :=
  { mem := Function.update tx.mem l v, log := ⟨l, tx.mem l⟩ :: tx.log }

/-- The memory once the log is undone. -/
def rollback (tx : Tx V) : ∀ l, V l :=
  tx.log.foldl (fun mem entry => Function.update mem entry.1 entry.2) tx.mem

omit [DecidableEq L] in
@[simp] theorem begin_mem (mem : ∀ l, V l) : (begin mem).mem = mem := rfl

@[simp] theorem rollback_begin (mem : ∀ l, V l) : (begin mem).rollback = mem := rfl

@[simp] theorem rollback_store (tx : Tx V) (l : L) (v : V l) :
    (tx.store l v).rollback = tx.rollback := by
  simp [rollback, store]

@[simp] theorem store_mem (tx : Tx V) (l : L) (v : V l) :
    (tx.store l v).mem = Function.update tx.mem l v := rfl

end Tx

/-! ### Programs in a transaction -/

variable {C : Type → Type} {α : Type}

/-- A program in a transaction that aborts before the call whose number is given. -/
def execTx (handle : Handler C (Tx V)) : Prog C α → Option Nat → Tx V → Option α × (∀ l, V l)
  | .ret a, abortAt, tx => if abortAt = some 0 then (none, tx.rollback) else (some a, tx.mem)
  | .call c next, abortAt, tx =>
    if abortAt = some 0 then (none, tx.rollback)
    else
      (handle _ c tx).elim (none, tx.rollback) fun r =>
        execTx handle (next r.1) (abortAt.map Nat.pred) r.2

/-- No call loses what the log leads back to. -/
def Undoable (handle : Handler C (Tx V)) : Prop :=
  ∀ (β : Type) (c : C β) (tx tx' : Tx V) (answer : β),
    handle β c tx = some (answer, tx') → tx'.rollback = tx.rollback

variable {handle : Handler C (Tx V)}

/-- **All that a transaction can come to**: it undoes its log, or it commits what
    the whole program has written. -/
theorem execTx_cases (h : Undoable handle) (prog : Prog C α) (abortAt : Option Nat) (tx : Tx V) :
    execTx handle prog abortAt tx = (none, tx.rollback) ∨
    ∃ a tx', prog.exec handle tx = some (a, tx') ∧
      execTx handle prog abortAt tx = (some a, tx'.mem) := by
  induction prog generalizing abortAt tx with
  | ret a =>
    rw [execTx]
    split_ifs
    · exact .inl rfl
    · exact .inr ⟨a, tx, rfl, rfl⟩
  | call c next ih =>
    rw [execTx, Prog.exec]
    split_ifs
    · exact .inl rfl
    · rcases hcall : handle _ c tx with _ | ⟨answer, tx'⟩
      · exact .inl rfl
      · rcases ih answer (abortAt.map Nat.pred) tx' with habort | ⟨a, tx'', hret, hcommit⟩
        · left
          rw [Option.elim_some, habort, h _ c tx tx' answer hcall]
        · exact .inr ⟨a, tx'', hret, hcommit⟩

/-- A transaction that is not told to abort commits when its program returns. -/
theorem execTx_none {prog : Prog C α} {tx tx' : Tx V} {a : α}
    (h : prog.exec handle tx = some (a, tx')) :
    execTx handle prog none tx = (some a, tx'.mem) := by
  induction prog generalizing tx with
  | ret b =>
    cases h
    rfl
  | call c next ih =>
    rw [Prog.exec] at h
    obtain ⟨⟨answer, tx''⟩, hcall, hrest⟩ := Option.bind_eq_some_iff.mp h
    rw [execTx, if_neg (Option.some_ne_none 0).symm, hcall]
    exact ih answer hrest

end NvrecYcsb.UndoLog
