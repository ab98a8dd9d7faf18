/-
  NvrecYcsb/AtomicCalls.lean
  ==========================
  **Operations made of atomic calls, run alone or interleaved.**

  An operation is a program of calls on a shared memory: each call is one step,
  its answer decides which call comes next, and the last step returns a value.
  A handler says what a call answers and makes of the memory, and gives nothing
  for a call that must not be made.

  * `Prog.exec`: the whole operation with nothing in between;
  * `Pool`: any number of clients, each running one operation after another, and
    an event either begins an operation or makes the next call of a client;
  * `Pool.step_cases`: all that an event can do;
  * `Pool.PastFinished`: each operation remembers which ones had returned when it
    began, and an operation that is still running is among nobody's past;
  * `Pool.OneAtATime`: a client is in the middle of one operation at most.
-/
import Mathlib.Data.List.Basic
import Mathlib.Tactic.Common

namespace NvrecYcsb.AtomicCalls

inductive Prog (C : Type → Type) (α : Type) : Type 1
  | ret (a : α)
  | call {β : Type} (c : C β) (next : β → Prog C α)

def Handler (C : Type → Type) (σ : Type) := ∀ β, C β → σ → Option (β × σ)

section Programs

variable {C : Type → Type} {σ α : Type} (handle : Handler C σ)

/-- The next call of the program. -/
def Prog.step : Prog C α → σ → Option (Prog C α × σ)
  | .ret _, _ => none
  | .call c next, mem => (handle _ c mem).map fun r => (next r.1, r.2)

/-- All calls of the program, one after the other. -/
def Prog.exec : Prog C α → σ → Option (α × σ)
  | .ret a, mem => some (a, mem)
  | .call c next, mem => (handle _ c mem).bind fun r => (next r.1).exec r.2

/-- What the program has returned. -/
def Prog.result : Prog C α → Option α
  | .ret a => some a
  | .call _ _ => none

def Prog.finished (prog : Prog C α) : Bool := prog.result.isSome

@[simp] theorem exec_ret (a : α) (mem : σ) : (Prog.ret a).exec handle mem = some (a, mem) := rfl

theorem exec_call {β : Type} {c : C β} {next : β → Prog C α} {mem mem' : σ} {b : β}
    (h : handle β c mem = some (b, mem')) :
    (Prog.call c next).exec handle mem = (next b).exec handle mem' := by
  rw [Prog.exec, h, Option.bind_some]

theorem step_call {β : Type} {c : C β} {next : β → Prog C α} {mem mem' : σ} {b : β}
    (h : handle β c mem = some (b, mem')) :
    (Prog.call c next).step handle mem = some (next b, mem') := by
  rw [Prog.step, h, Option.map_some]

theorem finished_of_step {prog : Prog C α} {mem : σ} {r : Prog C α × σ}
    (h : prog.step handle mem = some r) : prog.finished = false := by
  cases prog with
  | ret a => cases h
  | call c next => rfl

end Programs

/-! ### Clients -/

/-- An operation of a client, with the operations that had returned when it began. -/
structure Running (C : Type → Type) (Op α : Type) : Type 1 where
  client : Nat
  op : Op
  doneBefore : List Nat
  prog : Prog C α

/-- The shared memory, and all operations in the order in which they began. -/
structure Pool (C : Type → Type) (Op α σ : Type) : Type 1 where
  mem : σ
  ops : List (Running C Op α)

inductive Event (Op : Type)
  | begin (client : Nat) (op : Op)
  | call (client : Nat)

namespace Pool

variable {C : Type → Type} {Op α σ : Type}

/-- The operation that the client is in the middle of. -/
def current (s : Pool C Op α σ) (client : Nat) : Option Nat :=
  s.ops.findIdx? fun r => r.client = client && !r.prog.finished

def finishedOps (s : Pool C Op α σ) : List Nat :=
  (List.range s.ops.length).filter fun n => s.ops[n]?.any fun r => r.prog.finished

def start (program : Op → Prog C α) (s : Pool C Op α σ) (client : Nat) (op : Op) :
    Pool C Op α σ :=
  { s with ops := s.ops ++ [⟨client, op, s.finishedOps, program op⟩] }

def advance (handle : Handler C σ) (s : Pool C Op α σ) (n : Nat) : Pool C Op α σ :=
  match s.ops[n]? with
  | none => s
  | some r =>
    match r.prog.step handle s.mem with
    | none => s
    | some (prog, mem) => { mem := mem, ops := s.ops.set n { r with prog := prog } }

/-- A client begins an operation when it is in the middle of none, and makes its
    next call when it is in the middle of one. -/
def step (handle : Handler C σ) (program : Op → Prog C α) (s : Pool C Op α σ) :
    Event Op → Pool C Op α σ
  | .begin client op => if s.current client = none then s.start program client op else s
  | .call client => (s.current client).elim s (s.advance handle)

variable (handle : Handler C σ) (program : Op → Prog C α)

/-- **All that an event can do**: nothing, begin an operation, or make the next
    call of one. -/
theorem step_cases (s : Pool C Op α σ) (e : Event Op) :
    s.step handle program e = s ∨
    (∃ client op, e = .begin client op ∧ s.current client = none ∧
      s.step handle program e = s.start program client op) ∨
    (∃ client n r prog mem, e = .call client ∧ s.current client = some n ∧
      s.ops[n]? = some r ∧ r.prog.step handle s.mem = some (prog, mem) ∧
      s.step handle program e = { mem := mem, ops := s.ops.set n { r with prog := prog } }) := by
  cases e with
  | begin client op =>
    by_cases hnone : s.current client = none
    · exact Or.inr (Or.inl ⟨client, op, rfl, hnone, if_pos hnone⟩)
    · exact Or.inl (if_neg hnone)
  | call client =>
    cases hcurrent : s.current client with
    | none =>
      left
      rw [step, hcurrent, Option.elim_none]
    | some n =>
      rw [step, hcurrent, Option.elim_some, advance]
      cases hr : s.ops[n]? with
      | none => exact Or.inl rfl
      | some r =>
        cases hstep : r.prog.step handle s.mem with
        | none => simp [hstep]
        | some next =>
          right; right
          exact ⟨client, n, r, next.1, next.2, rfl, hcurrent, hr, hstep, by simp [hstep]⟩

/-- The operation has returned. -/
def Returned (s : Pool C Op α σ) (n : Nat) : Prop :=
  ∃ r : Running C Op α, s.ops[n]? = some r ∧ r.prog.finished = true

theorem returned_of_mem_finishedOps {s : Pool C Op α σ} {n : Nat} (h : n ∈ s.finishedOps) :
    s.Returned n := by
  obtain ⟨hlt, hany⟩ := List.mem_filter.mp h
  rw [List.getElem?_eq_getElem (List.mem_range.mp hlt), Option.any_some] at hany
  exact ⟨_, List.getElem?_eq_getElem (List.mem_range.mp hlt), hany⟩

/-- What had returned when an operation began has returned. -/
def PastFinished (s : Pool C Op α σ) : Prop :=
  ∀ (n : Nat) (r : Running C Op α), s.ops[n]? = some r → ∀ m ∈ r.doneBefore, s.Returned m

theorem pastFinished_nil (mem : σ) : PastFinished (⟨mem, []⟩ : Pool C Op α σ) := by
  intro n r hr
  cases hr

/-- The operation after the step of another one, or of its own. -/
theorem getElem?_set_running {ops : List (Running C Op α)} {n : Nat} {r : Running C Op α}
    (hr : ops[n]? = some r) (prog : Prog C α) (m : Nat) :
    (ops.set n { r with prog := prog })[m]? =
      if n = m then some { r with prog := prog } else ops[m]? := by
  obtain ⟨hlt, -⟩ := List.getElem?_eq_some_iff.mp hr
  rw [List.getElem?_set]
  by_cases h : n = m
  · rw [if_pos h, if_pos h, if_pos hlt]
  · rw [if_neg h, if_neg h]

theorem getElem?_start (s : Pool C Op α σ) (client : Nat) (op : Op) (m : Nat) :
    (s.start program client op).ops[m]? =
      if m = s.ops.length then some ⟨client, op, s.finishedOps, program op⟩ else s.ops[m]? := by
  show (s.ops ++ [_])[m]? = _
  by_cases h : m = s.ops.length
  · rw [if_pos h, h, List.getElem?_concat_length]
  · rw [if_neg h]
    rcases Nat.lt_or_gt_of_ne h with hlt | hgt
    · exact List.getElem?_append_left hlt
    · rw [List.getElem?_eq_none (Nat.le_of_lt hgt)]
      exact List.getElem?_eq_none (by rw [List.length_append, List.length_singleton]; omega)

theorem pastFinished_step {s : Pool C Op α σ} (hs : s.PastFinished) (e : Event Op) :
    (s.step handle program e).PastFinished := by
  rcases step_cases handle program s e with
    heq | ⟨client, op, -, -, heq⟩ | ⟨client, k, rk, prog, mem, -, -, hrk, hstep, heq⟩
  · rwa [heq]
  · have keep : ∀ m, s.Returned m → (s.start program client op).Returned m := by
      rintro m ⟨r', hr', hfinished⟩
      obtain ⟨hlt, -⟩ := List.getElem?_eq_some_iff.mp hr'
      refine ⟨r', ?_, hfinished⟩
      rw [getElem?_start, if_neg (Nat.ne_of_lt hlt), hr']
    intro n r hr m hm
    rw [heq] at hr ⊢
    rw [getElem?_start] at hr
    by_cases hn : n = s.ops.length
    · rw [if_pos hn] at hr
      obtain rfl := Option.some.inj hr
      exact keep m (returned_of_mem_finishedOps hm)
    · rw [if_neg hn] at hr
      exact keep m (hs n r hr m hm)
  · have keep : ∀ m, s.Returned m → Returned ⟨mem, s.ops.set k { rk with prog := prog }⟩ m := by
      rintro m ⟨r', hr', hfinished⟩
      have hne : k ≠ m := by
        rintro rfl
        rw [hrk] at hr'
        obtain rfl := Option.some.inj hr'
        rw [finished_of_step handle hstep] at hfinished
        cases hfinished
      exact ⟨r', by rw [getElem?_set_running hrk, if_neg hne, hr'], hfinished⟩
    intro n r hr m hm
    rw [heq] at hr ⊢
    rw [getElem?_set_running hrk] at hr
    by_cases hn : k = n
    · rw [if_pos hn] at hr
      obtain rfl := Option.some.inj hr
      exact keep m (hs k rk hrk m hm)
    · rw [if_neg hn] at hr
      exact keep m (hs n r hr m hm)

/-- An operation that still has a call to make is among nobody's past. -/
theorem not_mem_doneBefore {s : Pool C Op α σ} (hs : s.PastFinished) {n m : Nat}
    {r rm : Running C Op α} (hr : s.ops[n]? = some r) (hrm : s.ops[m]? = some rm)
    (hrunning : rm.prog.finished = false) : m ∉ r.doneBefore := by
  intro hm
  obtain ⟨r', hr', hfinished⟩ := hs n r hr m hm
  rw [hrm] at hr'
  obtain rfl := Option.some.inj hr'
  rw [hrunning] at hfinished
  cases hfinished

/-! ### The operation of a client -/

/-- A client is in the middle of one operation at most. -/
def OneAtATime (s : Pool C Op α σ) : Prop :=
  ∀ (n m : Nat) (r r' : Running C Op α), s.ops[n]? = some r → s.ops[m]? = some r' →
    r.client = r'.client → r.prog.finished = false → r'.prog.finished = false → n = m

theorem oneAtATime_nil (mem : σ) : OneAtATime (⟨mem, []⟩ : Pool C Op α σ) := by
  intro n m r r' hr
  cases hr

theorem current_eq_none {s : Pool C Op α σ} {client : Nat} (h : s.current client = none)
    {n : Nat} {r : Running C Op α} (hr : s.ops[n]? = some r) (hclient : r.client = client) :
    r.prog.finished = true := by
  have hall := List.findIdx?_eq_none_iff.mp h r (List.mem_of_getElem? hr)
  simpa [hclient] using hall

theorem current_of_running {s : Pool C Op α σ} (hs : s.OneAtATime) {n : Nat}
    {r : Running C Op α} (hr : s.ops[n]? = some r) (hrunning : r.prog.finished = false) :
    s.current r.client = some n := by
  cases hcurrent : s.current r.client with
  | none =>
    rw [current_eq_none hcurrent hr rfl] at hrunning
    cases hrunning
  | some m =>
    obtain ⟨hlt, hm, -⟩ := List.findIdx?_eq_some_iff_getElem.mp hcurrent
    obtain ⟨hclient, hfinished⟩ : s.ops[m].client = r.client ∧ s.ops[m].prog.finished = false := by
      simpa using hm
    exact congrArg some
      (hs m n _ r (List.getElem?_eq_getElem hlt) hr hclient hfinished hrunning)

theorem oneAtATime_set {s : Pool C Op α σ} (hs : s.OneAtATime) {k : Nat}
    {rk : Running C Op α} (hrk : s.ops[k]? = some rk) (hrunning : rk.prog.finished = false)
    (prog : Prog C α) (mem : σ) : OneAtATime ⟨mem, s.ops.set k { rk with prog := prog }⟩ := by
  -- the operation that moves was running before, for the same client
  have hbefore : ∀ (n : Nat) (r : Running C Op α),
      (s.ops.set k { rk with prog := prog })[n]? = some r → r.prog.finished = false →
        ∃ r₀, s.ops[n]? = some r₀ ∧ r₀.client = r.client ∧ r₀.prog.finished = false := by
    intro n r hr hrun
    rw [getElem?_set_running hrk] at hr
    by_cases hkn : k = n
    · rw [if_pos hkn] at hr
      obtain rfl := Option.some.inj hr
      exact ⟨rk, hkn ▸ hrk, rfl, hrunning⟩
    · rw [if_neg hkn] at hr
      exact ⟨r, hr, rfl, hrun⟩
  intro n m r r' hr hr' hclient hrun hrun'
  obtain ⟨r₀, hr₀, hclient₀, hrun₀⟩ := hbefore n r hr hrun
  obtain ⟨r₁, hr₁, hclient₁, hrun₁⟩ := hbefore m r' hr' hrun'
  exact hs n m r₀ r₁ hr₀ hr₁ (hclient₀.trans (hclient.trans hclient₁.symm)) hrun₀ hrun₁

theorem oneAtATime_step {s : Pool C Op α σ} (hs : s.OneAtATime) (e : Event Op) :
    (s.step handle program e).OneAtATime := by
  rcases step_cases handle program s e with
    heq | ⟨client, op, -, hcurrent, heq⟩ | ⟨client, k, rk, prog, mem, -, -, hrk, hstep, heq⟩
  · rwa [heq]
  · have hidle : ∀ (n : Nat) (r : Running C Op α), s.ops[n]? = some r → r.client = client →
        r.prog.finished = true := fun n r hr hclient => current_eq_none hcurrent hr hclient
    rw [heq]
    intro n m r r' hr hr' hclient hrun hrun'
    rw [getElem?_start] at hr hr'
    by_cases hn : n = s.ops.length
    · by_cases hm : m = s.ops.length
      · exact hn.trans hm.symm
      · rw [if_pos hn] at hr
        rw [if_neg hm] at hr'
        obtain rfl := Option.some.inj hr
        rw [hidle m r' hr' hclient.symm] at hrun'
        cases hrun'
    · rw [if_neg hn] at hr
      by_cases hm : m = s.ops.length
      · rw [if_pos hm] at hr'
        obtain rfl := Option.some.inj hr'
        rw [hidle n r hr hclient] at hrun
        cases hrun
      · rw [if_neg hm] at hr'
        exact hs n m r r' hr hr' hclient hrun hrun'
  · rw [heq]
    exact oneAtATime_set hs hrk (finished_of_step handle hstep) prog mem

/-- The next call of an operation that is running. -/
theorem step_call_of_running {s : Pool C Op α σ} (hs : s.OneAtATime) {n : Nat}
    {r : Running C Op α} (hr : s.ops[n]? = some r) {prog : Prog C α} {mem : σ}
    (hstep : r.prog.step handle s.mem = some (prog, mem)) :
    s.step handle program (.call r.client) =
      ⟨mem, s.ops.set n { r with prog := prog }⟩ := by
  rw [step, current_of_running hs hr (finished_of_step handle hstep), Option.elim_some, advance,
    hr]
  simp [hstep]

end Pool

end NvrecYcsb.AtomicCalls
