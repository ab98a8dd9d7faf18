/-
  NvrecYcsb/CriticalSections.lean
  ===============================
  **Operations under one lock, interleaved.**

  Each operation takes the lock before its first call and gives it back after its
  last one; an operation that finds the lock taken waits.  Other clients may take
  steps at any time, also while an operation is in the middle of its calls.

  A pool of such operations is linearizable.  The operations that have returned
  can be put in one order in which each of them, run alone after those before it,
  returns what it returned in the pool, and no operation comes before one that
  had returned when it began.

  * `guarded`: an operation with the lock around it;
  * `Legal`: operations one after the other, with what each returns;
  * `Linearized`: the order, and what it explains;
  * `linearized_run`: every run of the pool has one;
  * `exists_completion`: no run ends in a deadlock.
-/
import NvrecYcsb.AtomicCalls
import NvrecYcsb.Runs
import Mathlib.Data.List.Nodup

namespace NvrecYcsb.CriticalSections

open AtomicCalls Runs

/-! ### The lock -/

/-- The calls on a memory with a lock in front of it.  Taking the lock and giving
    it back have a fixed answer. -/
inductive LockCall (C : Type → Type) (β : Type)
  | lock (answer : β)
  | unlock (answer : β)
  | inside (c : C β)

structure Guarded (σ : Type) where
  mem : σ
  held : Bool

section Programs

variable {C : Type → Type} {σ α : Type}

/-- A taken lock is not taken again, and only a taken one is given back. -/
def handleGuarded (handle : Handler C σ) : Handler (LockCall C) (Guarded σ)
  | _, .lock answer, g => if g.held then none else some (answer, { g with held := true })
  | _, .unlock answer, g => if g.held then some (answer, { g with held := false }) else none
  | _, .inside c, g => (handle _ c g.mem).map fun r => (r.1, { g with mem := r.2 })

/-- What is left of an operation that has the lock. -/
def holding : Prog C α → Prog (LockCall C) α
  | .ret a => .call (.unlock ()) fun _ => .ret a
  | .call c next => .call (.inside c) fun b => holding (next b)

/-- The operation, with the lock around it. -/
def guarded (body : Prog C α) : Prog (LockCall C) α :=
  .call (.lock ()) fun _ => holding body

variable {handle : Handler C σ} {g : Guarded σ}

@[simp] theorem finished_guarded (body : Prog C α) : (guarded body).finished = false := rfl

@[simp] theorem finished_holding (body : Prog C α) : (holding body).finished = false := by
  cases body <;> rfl

/-- An operation that waits takes its first step when the lock is free. -/
theorem step_guarded {body : Prog C α} {r : Prog (LockCall C) α × Guarded σ} :
    (guarded body).step (handleGuarded handle) g = some r ↔
      g.held = false ∧ r = (holding body, { g with held := true }) := by
  rw [guarded, Prog.step, handleGuarded]
  cases g.held with
  | true => simp
  | false =>
    rw [if_neg Bool.false_ne_true, Option.map_some, Option.some_inj]
    exact ⟨fun h => ⟨rfl, h.symm⟩, fun h => h.2.symm⟩

/-- All that a step of an operation with the lock can be: the lock given back and
    the value returned, or a call of the operation. -/
theorem step_holding {body : Prog C α} {r : Prog (LockCall C) α × Guarded σ}
    (h : (holding body).step (handleGuarded handle) g = some r) :
    (∃ a, body = .ret a ∧ g.held = true ∧ r = (.ret a, { g with held := false })) ∨
      ∃ rest mem, r = (holding rest, { g with mem := mem }) ∧
        rest.exec handle mem = body.exec handle g.mem := by
  cases body with
  | ret a =>
    rw [holding, Prog.step, handleGuarded] at h
    cases hheld : g.held with
    | true =>
      rw [hheld, if_pos rfl, Option.map_some] at h
      exact Or.inl ⟨a, rfl, rfl, (Option.some.inj h).symm⟩
    | false =>
      rw [hheld, if_neg Bool.false_ne_true] at h
      cases h
  | call c next =>
    rw [holding, Prog.step, handleGuarded] at h
    cases hcall : handle _ c g.mem with
    | none =>
      rw [hcall] at h
      cases h
    | some answer =>
      rw [hcall] at h
      exact Or.inr ⟨next answer.1, answer.2, (Option.some.inj h).symm,
        (exec_call handle hcall).symm⟩

end Programs

/-! ### Operations one after the other -/

section Histories

variable {C : Type → Type} {Op α σ : Type} (handle : Handler C σ) (body : Op → Prog C α)

/-- The operations run alone, one after the other, and each returns its value. -/
def Legal : σ → List (Op × α) → σ → Prop
  | mem, [], mem' => mem = mem'
  | mem, (op, a) :: history, mem' =>
    ∃ next, (body op).exec handle mem = some (a, next) ∧ Legal next history mem'

theorem legal_append {mem mem' : σ} {history history' : List (Op × α)} :
    Legal handle body mem (history ++ history') mem' ↔
      ∃ next, Legal handle body mem history next ∧ Legal handle body next history' mem' := by
  induction history generalizing mem with
  | nil => exact ⟨fun h => ⟨mem, rfl, h⟩, fun ⟨_, rfl, h⟩ => h⟩
  | cons entry history ih =>
    constructor
    · rintro ⟨next, hexec, hrest⟩
      obtain ⟨last, hhistory, hhistory'⟩ := ih.mp hrest
      exact ⟨last, ⟨next, hexec, hhistory⟩, hhistory'⟩
    · rintro ⟨last, ⟨next, hexec, hhistory⟩, hhistory'⟩
      exact ⟨next, hexec, ih.mpr ⟨last, hhistory, hhistory'⟩⟩

theorem legal_singleton {mem mem' : σ} {op : Op} {a : α} :
    Legal handle body mem [(op, a)] mem' ↔ (body op).exec handle mem = some (a, mem') := by
  constructor
  · rintro ⟨next, hexec, rfl⟩
    exact hexec
  · intro hexec
    exact ⟨mem', hexec, rfl⟩

/-- What every operation of a legal history keeps, the history keeps. -/
theorem Legal.keeps {I : σ → Prop} {mem mem' : σ} {history : List (Op × α)}
    (h : Legal handle body mem history mem')
    (hkeeps : ∀ entry ∈ history, ∀ before after, I before →
      (body entry.1).exec handle before = some (entry.2, after) → I after)
    (hI : I mem) : I mem' := by
  induction history generalizing mem with
  | nil => exact h ▸ hI
  | cons entry history ih =>
    obtain ⟨next, hexec, hrest⟩ := h
    exact ih hrest (fun entry' hentry' => hkeeps entry' (List.mem_cons_of_mem entry hentry'))
      (hkeeps entry List.mem_cons_self mem next hI hexec)

end Histories

/-! ### Clients -/

/-- The clients, each operation of which runs under the lock. -/
abbrev Clients (C : Type → Type) (Op α σ : Type) := Pool (LockCall C) Op α (Guarded σ)

namespace Clients

variable {C : Type → Type} {Op α σ : Type}

def init (mem : σ) : Clients C Op α σ := ⟨⟨mem, false⟩, []⟩

/-- The value that an operation has returned, with the operation. -/
def answerOf (s : Clients C Op α σ) (n : Nat) : Option (Op × α) :=
  s.ops[n]?.bind fun r => r.prog.result.map fun a => (r.op, a)

/-- The operations of the list that have returned, with their values. -/
def answers (s : Clients C Op α σ) (order : List Nat) : List (Op × α) :=
  order.filterMap s.answerOf

variable (handle : Handler C σ) (body : Op → Prog C α)

def step : Clients C Op α σ → Event Op → Clients C Op α σ :=
  Pool.step (handleGuarded handle) fun op => guarded (body op)

/-- **The operations that have returned, in the order in which they took effect.**
    Run alone in this order they return what they have returned and leave `mem`
    behind, and the memory is `mem` whenever the lock is free.  None of them comes
    before an operation that had returned when it began. -/
structure Linearized (mem₀ : σ) (s : Clients C Op α σ) (order : List Nat) (mem : σ) : Prop where
  nodup : order.Nodup
  returned : ∀ n, n ∈ order ↔ s.Returned n
  realTime : order.Pairwise fun n m => ∀ r, s.ops[n]? = some r → m ∉ r.doneBefore
  legal : Legal handle body mem₀ (s.answers order) mem
  free : s.mem.held = false → s.mem.mem = mem

/-- What every step keeps: the order so far, and one operation at most between
    taking the lock and giving it back, whose calls so far start from `mem`. -/
structure Inv (mem₀ : σ) (s : Clients C Op α σ) (order : List Nat) (mem : σ)
    (holder : Option Nat) : Prop where
  past : s.PastFinished
  nodup : order.Nodup
  returned : ∀ n, n ∈ order ↔ s.Returned n
  realTime : order.Pairwise fun n m => ∀ r, s.ops[n]? = some r → m ∉ r.doneBefore
  legal : Legal handle body mem₀ (s.answers order) mem
  held : s.mem.held = holder.isSome
  free : holder = none → s.mem.mem = mem
  holds : ∀ n, holder = some n → ∃ r rest, s.ops[n]? = some r ∧ r.prog = holding rest ∧
    rest.exec handle s.mem.mem = (body r.op).exec handle mem
  waits : ∀ n r, s.ops[n]? = some r → holder ≠ some n →
    r.prog = guarded (body r.op) ∨ r.prog.finished = true

section Steps

variable {handle body} {mem₀ mem : σ} {s s' : Clients C Op α σ} {order : List Nat}
  {holder : Option Nat}

theorem Inv.linearized (h : Inv handle body mem₀ s order mem holder) :
    Linearized handle body mem₀ s order mem where
  nodup := h.nodup
  returned := h.returned
  realTime := h.realTime
  legal := h.legal
  free := by
    intro hfree
    apply h.free
    rw [h.held] at hfree
    exact Option.not_isSome_iff_eq_none.mp (by rw [hfree]; exact Bool.false_ne_true)

theorem inv_init (mem₀ : σ) : Inv handle body mem₀ (init mem₀) [] mem₀ none where
  past := Pool.pastFinished_nil _
  nodup := List.nodup_nil
  returned := by
    intro n
    refine iff_of_false List.not_mem_nil ?_
    rintro ⟨r, hr, -⟩
    cases hr
  realTime := List.Pairwise.nil
  legal := rfl
  held := rfl
  free := fun _ => rfl
  holds := by
    rintro n ⟨⟩
  waits := by
    intro n r hr
    cases hr

/-- What is known of the order outlives a step that leaves the operations of the
    order alone. -/
theorem answers_congr (hsame : ∀ n ∈ order, s'.ops[n]? = s.ops[n]?) :
    s'.answers order = s.answers order := by
  refine List.filterMap_congr fun n hn => ?_
  rw [answerOf, answerOf, hsame n hn]

theorem realTime_congr (hsame : ∀ n ∈ order, s'.ops[n]? = s.ops[n]?)
    (h : order.Pairwise fun n m => ∀ r, s.ops[n]? = some r → m ∉ r.doneBefore) :
    order.Pairwise fun n m => ∀ r, s'.ops[n]? = some r → m ∉ r.doneBefore := by
  refine h.imp_of_mem ?_
  intro n m hn _ hnm r hr
  rw [hsame n hn] at hr
  exact hnm r hr

/-! ### One step -/

variable {n : Nat} {r : Running (LockCall C) Op α}

/-- An operation begins. -/
theorem inv_start (h : Inv handle body mem₀ s order mem holder) (client : Nat) (op : Op)
    (hpast : (Pool.start (fun op => guarded (body op)) s client op).PastFinished) :
    Inv handle body mem₀ (Pool.start (fun op => guarded (body op)) s client op) order mem
      holder := by
  have hnew : ∀ m, s.Returned m → m ≠ s.ops.length := by
    rintro m ⟨r, hr, -⟩ rfl
    rw [List.getElem?_eq_none (Nat.le_refl _)] at hr
    cases hr
  have hold : ∀ m, m ≠ s.ops.length →
      (Pool.start (fun op => guarded (body op)) s client op).ops[m]? = s.ops[m]? := by
    intro m hm
    rw [Pool.getElem?_start, if_neg hm]
  have hsame : ∀ m ∈ order,
      (Pool.start (fun op => guarded (body op)) s client op).ops[m]? = s.ops[m]? :=
    fun m hm => hold m (hnew m ((h.returned m).mp hm))
  refine ⟨hpast, h.nodup, ?_, realTime_congr hsame h.realTime, ?_, h.held, h.free, ?_, ?_⟩
  · intro m
    rw [h.returned]
    by_cases hm : m = s.ops.length
    · subst hm
      refine iff_of_false (fun hreturned => hnew _ hreturned rfl) ?_
      rintro ⟨r, hr, hfinished⟩
      rw [Pool.getElem?_start, if_pos rfl] at hr
      obtain rfl := Option.some.inj hr
      cases hfinished
    · rw [Pool.Returned, Pool.Returned, hold m hm]
  · rw [answers_congr hsame]
    exact h.legal
  · intro m hm
    obtain ⟨r, rest, hr, hprog, hexec⟩ := h.holds m hm
    obtain ⟨hlt, -⟩ := List.getElem?_eq_some_iff.mp hr
    exact ⟨r, rest, (hold m (Nat.ne_of_lt hlt)).trans hr, hprog, hexec⟩
  · intro m r hr hholder
    by_cases hm : m = s.ops.length
    · rw [Pool.getElem?_start, if_pos hm] at hr
      obtain rfl := Option.some.inj hr
      exact Or.inl rfl
    · rw [hold m hm] at hr
      exact h.waits m r hr hholder

/-- What every step of operation `n` keeps of the others, and of the order while
    `n` is running. -/
theorem returned_set (hr : s.ops[n]? = some r) (g : Guarded σ) (prog : Prog (LockCall C) α)
    (m : Nat) :
    Pool.Returned ⟨g, s.ops.set n { r with prog := prog }⟩ m ↔
      if n = m then prog.finished = true else s.Returned m := by
  rw [Pool.Returned, Pool.Returned, Pool.getElem?_set_running hr]
  by_cases hnm : n = m
  · rw [if_pos hnm, if_pos hnm]
    constructor
    · rintro ⟨r', hr', hfinished⟩
      obtain rfl := Option.some.inj hr'
      exact hfinished
    · intro hfinished
      exact ⟨_, rfl, hfinished⟩
  · rw [if_neg hnm, if_neg hnm]

theorem not_mem_order (h : Inv handle body mem₀ s order mem holder) (hr : s.ops[n]? = some r)
    (hrunning : r.prog.finished = false) : n ∉ order := by
  intro hn
  obtain ⟨r', hr', hfinished⟩ := (h.returned n).mp hn
  obtain rfl := Option.some.inj (hr.symm.trans hr')
  rw [hrunning] at hfinished
  cases hfinished

/-- The lock is taken, or the operation that has it makes a call: it has not returned,
    and nobody else has the lock. -/
theorem inv_running (h : Inv handle body mem₀ s order mem holder) (hr : s.ops[n]? = some r)
    (hrunning : r.prog.finished = false) (hholder : ∀ m, holder = some m → m = n)
    {rest : Prog C α} {next : σ}
    (hrest : rest.exec handle next = (body r.op).exec handle mem)
    (hpast : Pool.PastFinished
      (⟨⟨next, true⟩, s.ops.set n { r with prog := holding rest }⟩ : Clients C Op α σ)) :
    Inv handle body mem₀ ⟨⟨next, true⟩, s.ops.set n { r with prog := holding rest }⟩ order mem
      (some n) := by
  have hn : n ∉ order := not_mem_order h hr hrunning
  have hsame : ∀ m ∈ order, (s.ops.set n { r with prog := holding rest })[m]? = s.ops[m]? := by
    intro m hm
    rw [Pool.getElem?_set_running hr, if_neg (by rintro rfl; exact hn hm)]
  refine ⟨hpast, h.nodup, ?_, realTime_congr hsame h.realTime, ?_, rfl, ?_, ?_, ?_⟩
  · intro m
    rw [returned_set hr, finished_holding, h.returned]
    by_cases hnm : n = m
    · subst hnm
      rw [if_pos rfl, ← h.returned]
      exact iff_of_false hn Bool.false_ne_true
    · rw [if_neg hnm]
  · rw [answers_congr (s := s) hsame]
    exact h.legal
  · rintro ⟨⟩
  · intro m hm
    obtain rfl := Option.some.inj hm
    exact ⟨{ r with prog := holding rest }, rest,
      by rw [Pool.getElem?_set_running hr, if_pos rfl], rfl, hrest⟩
  · intro m r' hr' hm
    have hnm : n ≠ m := fun heq => hm (congrArg some heq)
    rw [Pool.getElem?_set_running hr, if_neg hnm] at hr'
    exact h.waits m r' hr' fun hholds => hnm (hholder m hholds).symm

/-- The operation that has the lock gives it back and returns: it comes last in the
    order, and nobody before it began after it had returned. -/
theorem inv_return (h : Inv handle body mem₀ s order mem (some n)) (hr : s.ops[n]? = some r)
    (hrunning : r.prog.finished = false) {a : α}
    (hexec : (body r.op).exec handle mem = some (a, s.mem.mem))
    (hpast : Pool.PastFinished
      (⟨⟨s.mem.mem, false⟩, s.ops.set n { r with prog := .ret a }⟩ : Clients C Op α σ)) :
    Inv handle body mem₀ ⟨⟨s.mem.mem, false⟩, s.ops.set n { r with prog := .ret a }⟩
      (order ++ [n]) s.mem.mem none := by
  have hn : n ∉ order := not_mem_order h hr hrunning
  have hsame : ∀ m ∈ order, (s.ops.set n { r with prog := .ret a })[m]? = s.ops[m]? := by
    intro m hm
    rw [Pool.getElem?_set_running hr, if_neg (by rintro rfl; exact hn hm)]
  have hanswer : answers ⟨⟨s.mem.mem, false⟩, s.ops.set n { r with prog := .ret a }⟩ [n] =
      [(r.op, a)] := by
    rw [answers, List.filterMap_cons, answerOf, Pool.getElem?_set_running hr, if_pos rfl]
    rfl
  refine ⟨hpast, ?_, ?_, ?_, ?_, rfl, fun _ => rfl, ?_, ?_⟩
  · exact List.nodup_append.mpr ⟨h.nodup, List.nodup_singleton n, by
      rintro m hm _ hm' rfl
      exact hn (List.mem_singleton.mp hm' ▸ hm)⟩
  · intro m
    rw [List.mem_append, List.mem_singleton, returned_set hr, h.returned]
    by_cases hnm : n = m
    · subst hnm
      rw [if_pos rfl]
      exact iff_of_true (Or.inr rfl) rfl
    · rw [if_neg hnm]
      exact or_iff_left (Ne.symm hnm)
  · refine List.pairwise_append.mpr ⟨realTime_congr hsame h.realTime,
      List.pairwise_singleton _ n, ?_⟩
    intro m hm k hk r' hr'
    obtain rfl := List.mem_singleton.mp hk
    rw [hsame m hm] at hr'
    exact Pool.not_mem_doneBefore h.past hr' hr hrunning
  · rw [answers, List.filterMap_append]
    refine (legal_append handle body).mpr ⟨mem, ?_, ?_⟩
    · show Legal handle body mem₀ (answers _ order) mem
      rw [answers_congr hsame]
      exact h.legal
    · show Legal handle body mem (answers _ [n]) _
      rw [hanswer]
      exact (legal_singleton handle body).mpr hexec
  · rintro m ⟨⟩
  · intro m r' hr' _
    rw [Pool.getElem?_set_running hr] at hr'
    by_cases hnm : n = m
    · rw [if_pos hnm] at hr'
      obtain rfl := Option.some.inj hr'
      exact Or.inr rfl
    · rw [if_neg hnm] at hr'
      exact h.waits m r' hr' fun hholds => hnm (Option.some.inj hholds)

/-- **What every step keeps.** -/
theorem inv_step (h : Inv handle body mem₀ s order mem holder) (e : Event Op) :
    ∃ order' mem' holder', Inv handle body mem₀ (step handle body s e) order' mem' holder' := by
  have hpast : (step handle body s e).PastFinished := Pool.pastFinished_step _ _ h.past e
  rcases Pool.step_cases (handleGuarded handle) (fun op => guarded (body op)) s e with
    heq | ⟨client, op, -, -, heq⟩ | ⟨client, n, r, prog, g, -, -, hr, hstep, heq⟩
  · exact ⟨order, mem, holder, by rw [step, heq]; exact h⟩
  · rw [step, heq] at hpast ⊢
    exact ⟨order, mem, holder, inv_start h client op hpast⟩
  · rw [step, heq] at hpast ⊢
    have hrunning : r.prog.finished = false := finished_of_step _ hstep
    by_cases hholder : holder = some n
    · subst hholder
      obtain ⟨r', rest, hr', hprog, hexec⟩ := h.holds n rfl
      obtain rfl := Option.some.inj (hr.symm.trans hr')
      rw [hprog] at hstep
      rcases step_holding hstep with ⟨a, rfl, -, hret⟩ | ⟨rest', next, hret, hexec'⟩
      · obtain ⟨rfl, rfl⟩ := Prod.mk.inj hret
        exact ⟨order ++ [n], s.mem.mem, none, inv_return h hr hrunning hexec.symm hpast⟩
      · obtain ⟨rfl, rfl⟩ := Prod.mk.inj hret
        have hheld : s.mem.held = true := h.held
        rw [hheld] at hpast ⊢
        refine ⟨order, mem, some n, inv_running h hr hrunning ?_ (hexec'.trans hexec) hpast⟩
        intro m hm
        exact (Option.some.inj hm).symm
    · rcases h.waits n r hr hholder with hprog | hfinished
      · rw [hprog] at hstep
        obtain ⟨hfree, hret⟩ := step_guarded.mp hstep
        obtain ⟨rfl, rfl⟩ := Prod.mk.inj hret
        have hnone : holder = none := by
          cases holder with
          | none => rfl
          | some m =>
            have hheld : s.mem.held = true := h.held
            rw [hfree] at hheld
            cases hheld
        refine ⟨order, mem, some n, inv_running h hr hrunning ?_ ?_ hpast⟩
        · intro m hm
          rw [hnone] at hm
          cases hm
        · rw [h.free hnone]
      · rw [hrunning] at hfinished
        cases hfinished

end Steps

/-! ### Runs -/

theorem inv_run (mem₀ : σ) (es : List (Event Op)) :
    ∃ order mem holder,
      Inv handle body mem₀ (run (step handle body) (init mem₀) es) order mem holder := by
  have hall : Throughout (step handle body)
      (fun s => ∃ order mem holder, Inv handle body mem₀ s order mem holder) (init mem₀) es := by
    refine throughout_of_allSteps (P := fun _ _ => True) ?_ ⟨[], mem₀, none, inv_init mem₀⟩
      (allSteps_const.mpr fun _ _ => trivial)
    rintro s e ⟨order, mem, holder, h⟩ -
    exact inv_step h e
  exact hall.last

/-- **Every run is linearizable.** -/
theorem linearized_run (mem₀ : σ) (es : List (Event Op)) :
    ∃ order mem, Linearized handle body mem₀ (run (step handle body) (init mem₀) es) order mem := by
  obtain ⟨order, mem, holder, h⟩ := inv_run handle body mem₀ es
  exact ⟨order, mem, h.linearized⟩

/-! ### No deadlock -/

/-- Every operation that has begun has returned. -/
def AllReturned (s : Clients C Op α σ) : Prop :=
  ∀ r ∈ s.ops, r.prog.finished = true

/-- The number of operations that have not returned. -/
def pending (s : Clients C Op α σ) : Nat := s.ops.countP fun r => !r.prog.finished

/-- Who began what, in the order in which the operations began. -/
def begun (s : Clients C Op α σ) : List (Nat × Op) := s.ops.map fun r => (r.client, r.op)

variable {handle body} {mem₀ mem : σ} {s : Clients C Op α σ} {order : List Nat}
  {holder : Option Nat} {n : Nat} {r : Running (LockCall C) Op α}

variable (handle body) in
/-- The next step of an operation that is running. -/
theorem step_call (hone : s.OneAtATime) (hr : s.ops[n]? = some r) {prog : Prog (LockCall C) α}
    {g : Guarded σ} (hstep : r.prog.step (handleGuarded handle) s.mem = some (prog, g)) :
    step handle body s (.call r.client) = ⟨g, s.ops.set n { r with prog := prog }⟩ ∧
      Pool.OneAtATime (⟨g, s.ops.set n { r with prog := prog }⟩ : Clients C Op α σ) :=
  ⟨Pool.step_call_of_running _ _ hone hr hstep,
    Pool.oneAtATime_set hone hr (finished_of_step _ hstep) prog g⟩

/-- The operation that has the lock makes its calls, all of them, and returns. -/
theorem run_holding (hone : s.OneAtATime) (hr : s.ops[n]? = some r) {rest : Prog C α}
    (hprog : r.prog = holding rest) (hheld : s.mem.held = true) {a : α} {mem' : σ}
    (hexec : rest.exec handle s.mem.mem = some (a, mem')) :
    ∃ turns, run (step handle body) s (List.replicate turns (.call r.client)) =
      ⟨⟨mem', false⟩, s.ops.set n { r with prog := .ret a }⟩ := by
  induction rest generalizing s r with
  | ret b =>
    obtain ⟨rfl, rfl⟩ := Prod.mk.inj (Option.some.inj hexec)
    have hstep : r.prog.step (handleGuarded handle) s.mem =
        some (.ret b, ⟨s.mem.mem, false⟩) := by
      rw [hprog, holding, Prog.step, handleGuarded, if_pos hheld, Option.map_some]
    exact ⟨1, (step_call handle body hone hr hstep).1⟩
  | call c next ih =>
    rw [Prog.exec] at hexec
    obtain ⟨answer, hcall, hrest⟩ := Option.bind_eq_some_iff.mp hexec
    have hstep : r.prog.step (handleGuarded handle) s.mem =
        some (holding (next answer.1), ⟨answer.2, true⟩) := by
      rw [hprog, holding, Prog.step, handleGuarded, hcall, Option.map_some, Option.map_some, hheld]
    obtain ⟨hmove, hone'⟩ := step_call handle body hone hr hstep
    obtain ⟨turns, hturns⟩ := ih answer.1 hone'
      (by rw [Pool.getElem?_set_running hr, if_pos rfl]) rfl rfl hrest
    refine ⟨turns + 1, ?_⟩
    rw [List.replicate_succ, run_cons, hmove]
    exact hturns.trans (by rw [List.set_set])

/-- Some operation that has not returned can return next, with the calls of its
    client alone. -/
theorem exists_return (h : Inv handle body mem₀ s order mem holder) (hone : s.OneAtATime)
    (hserves : ∀ r ∈ s.ops, ∃ a mem', (body r.op).exec handle mem = some (a, mem'))
    (hpending : ¬AllReturned s) :
    ∃ n r a g turns, s.ops[n]? = some r ∧ r.prog.finished = false ∧
      run (step handle body) s (List.replicate turns (.call r.client)) =
        ⟨g, s.ops.set n { r with prog := .ret a }⟩ := by
  cases holder with
  | some n =>
    obtain ⟨r, rest, hr, hprog, hexec⟩ := h.holds n rfl
    obtain ⟨a, mem', hserve⟩ := hserves r (List.mem_of_getElem? hr)
    obtain ⟨turns, hturns⟩ := run_holding hone hr hprog h.held (hexec.trans hserve)
    exact ⟨n, r, a, _, turns, hr, by rw [hprog, finished_holding], hturns⟩
  | none =>
    -- the lock is free: any operation that waits takes it, and then goes on to its end
    obtain ⟨r, hmem, hrunning⟩ : ∃ r ∈ s.ops, r.prog.finished = false := by
      simpa [AllReturned] using hpending
    obtain ⟨n, hr⟩ := List.mem_iff_getElem?.mp hmem
    have hprog : r.prog = guarded (body r.op) := by
      rcases h.waits n r hr (Option.some_ne_none n).symm with hwaits | hfinished
      · exact hwaits
      · rw [hrunning] at hfinished
        cases hfinished
    have hstep : r.prog.step (handleGuarded handle) s.mem =
        some (holding (body r.op), { s.mem with held := true }) := by
      rw [hprog]
      exact step_guarded.mpr ⟨h.held, rfl⟩
    obtain ⟨a, mem', hserve⟩ := hserves r hmem
    rw [← h.free rfl] at hserve
    obtain ⟨hmove, hone'⟩ := step_call handle body hone hr hstep
    obtain ⟨turns, hturns⟩ := run_holding hone'
      (by rw [Pool.getElem?_set_running hr, if_pos rfl]) rfl rfl hserve
    refine ⟨n, r, a, ⟨mem', false⟩, turns + 1, hr, hrunning, ?_⟩
    rw [List.replicate_succ, run_cons, hmove]
    exact hturns.trans (by rw [List.set_set])

theorem begun_set (hr : s.ops[n]? = some r) (prog : Prog (LockCall C) α) (g : Guarded σ) :
    begun ⟨g, s.ops.set n { r with prog := prog }⟩ = s.begun := by
  obtain ⟨hlt, rfl⟩ := List.getElem?_eq_some_iff.mp hr
  rw [begun, begun, List.map_set]
  refine List.ext_getElem (by rw [List.length_set]) fun m _ hm => ?_
  rw [List.getElem_set, List.getElem_map]
  by_cases hnm : n = m
  · subst hnm
    rw [if_pos rfl]
  · rw [if_neg hnm]

theorem pending_set (hr : s.ops[n]? = some r) (hrunning : r.prog.finished = false) (a : α)
    (g : Guarded σ) :
    pending ⟨g, s.ops.set n { r with prog := .ret a }⟩ < s.pending := by
  obtain ⟨hlt, rfl⟩ := List.getElem?_eq_some_iff.mp hr
  have hpos : 0 < s.pending :=
    List.countP_pos_iff.mpr ⟨_, List.getElem_mem hlt, by rw [hrunning]; rfl⟩
  rw [pending, List.countP_set hlt, hrunning]
  show s.pending - 1 + 0 < s.pending
  omega

theorem inv_runFrom (h : Inv handle body mem₀ s order mem holder) (hone : s.OneAtATime)
    (es : List (Event Op)) :
    (∃ order' mem' holder', Inv handle body mem₀ (run (step handle body) s es) order' mem' holder') ∧
      Pool.OneAtATime (run (step handle body) s es) := by
  have hall : Throughout (step handle body) (fun s =>
      (∃ order mem holder, Inv handle body mem₀ s order mem holder) ∧ s.OneAtATime) s es := by
    refine throughout_of_allSteps (P := fun _ _ => True) ?_ ⟨⟨order, mem, holder, h⟩, hone⟩
      (allSteps_const.mpr fun _ _ => trivial)
    rintro s e ⟨⟨order, mem, holder, h⟩, hone⟩ -
    exact ⟨inv_step h e, Pool.oneAtATime_step _ _ hone e⟩
  exact hall.last

/-- What the operations keep holds of the memory between two of them. -/
theorem Inv.keeps {I : σ → Prop} {P : Op → Prop}
    (hserves : ∀ op, P op → ∀ mem, I mem →
      ∃ a mem', (body op).exec handle mem = some (a, mem') ∧ I mem')
    (h : Inv handle body mem₀ s order mem holder) (hops : ∀ r ∈ s.ops, P r.op)
    (hI : I mem₀) : I mem := by
  refine h.legal.keeps handle body ?_ hI
  rintro ⟨op, a⟩ hentry before after hbefore hexec
  obtain ⟨n, -, hn⟩ := List.mem_filterMap.mp hentry
  obtain ⟨r, hr, hanswer⟩ := Option.bind_eq_some_iff.mp hn
  obtain ⟨a', -, heq⟩ := Option.map_eq_some_iff.mp hanswer
  obtain ⟨rfl, rfl⟩ := Prod.mk.inj heq
  obtain ⟨_, last, hexec', hlast⟩ := hserves r.op (hops r (List.mem_of_getElem? hr)) before hbefore
  obtain ⟨-, rfl⟩ := Prod.mk.inj (Option.some.inj (hexec.symm.trans hexec'))
  exact hlast

/-- **No run ends in a deadlock.**  While the operations that have begun can be run
    alone, from every memory that they leave, the calls of the clients can always be
    put in an order in which all of them return. -/
theorem exists_completion {I : σ → Prop} {P : Op → Prop}
    (hserves : ∀ op, P op → ∀ mem, I mem →
      ∃ a mem', (body op).exec handle mem = some (a, mem') ∧ I mem')
    (hI : I mem₀) (h : Inv handle body mem₀ s order mem holder) (hone : s.OneAtATime)
    (hops : ∀ entry ∈ s.begun, P entry.2) :
    ∃ clients : List Nat,
      AllReturned (run (step handle body) s (clients.map .call)) ∧
        begun (run (step handle body) s (clients.map .call)) = s.begun := by
  induction hk : s.pending using Nat.strong_induction_on generalizing s order mem holder with
  | _ k ih =>
    subst hk
    by_cases hdone : AllReturned s
    · exact ⟨[], hdone, rfl⟩
    · have hP : ∀ r ∈ s.ops, P r.op := fun r hr => hops _ (List.mem_map_of_mem hr)
      have hmem : I mem := h.keeps hserves hP hI
      obtain ⟨n, r, a, g, turns, hr, hrunning, hturns⟩ := exists_return h hone
        (fun r hr => by
          obtain ⟨a, mem', hexec, -⟩ := hserves r.op (hP r hr) mem hmem
          exact ⟨a, mem', hexec⟩)
        hdone
      obtain ⟨⟨order', mem', holder', h'⟩, hone'⟩ :=
        inv_runFrom h hone (List.replicate turns (.call r.client))
      rw [hturns] at h' hone'
      have hbegun := begun_set hr (.ret a) g
      obtain ⟨clients, hall, hsame⟩ := ih _ (pending_set hr hrunning a g) h' hone'
        (by rw [hbegun]; exact hops) rfl
      refine ⟨List.replicate turns r.client ++ clients, ?_⟩
      rw [List.map_append, List.map_replicate, run_append, hturns]
      exact ⟨hall, hsame.trans hbegun⟩

end Clients

end NvrecYcsb.CriticalSections
