/-
  NvrecYcsb/ListPool.lean
  =======================
  **The persistent list of one pool** (`recovery/persistent_list.{h,cc}`).

  A pool is a heap of list nodes.  Nodes are never freed, so a persistent
  pointer is the number of its allocation.  `Insert` allocates a node and puts
  it in front of the list; the flush thread reads the list from `head_` by
  following `next`.

  * `wellFormed_insert`, `wellFormed_setObj`: the links stay those of a list
    that grows at its head, and each node keeps the key of its tuple;
  * `tuples_eq`: following `next` from the head visits every node once, the
    newest first.
-/
import NvrecYcsb.RecoveryDefs
import Mathlib.Data.List.GetD

namespace NvrecYcsb.ListPool

open CppRuntime RecoveryDefs

/-- `persistent_ptr<ListNode>`, not null: the number of an allocation. -/
abbrev Ptr := Nat

structure ListNode where
  next : Option Ptr := none
  prev : Option Ptr := none
  key : UInt64
  obj : Tuple
deriving DecidableEq

/-- The root object of a pool, with the heap its pointers point into. -/
structure PersistentList where
  heap : List ListNode := []
  head : Option Ptr := none
  tail : Option Ptr := none
deriving DecidableEq

namespace PersistentList

def assign (l : PersistentList) (p : Ptr) (f : ListNode → ListNode) : PersistentList :=
  { l with heap := l.heap.modify p f }

/-- `make_persistent<ListNode>()` with the key and the tuple of the entry. -/
def allocate (l : PersistentList) (entry : Tuple) : PersistentList :=
  { l with heap := l.heap ++ [{ key := entry.key, obj := entry }] }

/-- `Insert`: the node of the entry becomes the head. -/
def insert (l : PersistentList) (entry : Tuple) : Ptr × PersistentList :=
  let entryNode := l.heap.length
  let l := l.allocate entry
  match l.head with
  | none => (entryNode, { l with head := some entryNode, tail := some entryNode })
  | some oldHead =>
    let l := l.assign entryNode fun n => { n with next := some oldHead }
    let l := l.assign oldHead fun n => { n with prev := some entryNode }
    (entryNode, { l with head := some entryNode })

/-- `it->second->obj = value`. -/
def setObj (l : PersistentList) (p : Ptr) (value : Tuple) : PersistentList :=
  l.assign p fun n => { n with obj := value }

/-- The tuples met when `next` is followed from `current`, at most `fuel` nodes. -/
def walk (l : PersistentList) : Nat → Option Ptr → List Tuple
  | 0, _ => []
  | _ + 1, none => []
  | fuel + 1, some p =>
    match l.heap[p]? with
    | none => []
    | some n => n.obj :: l.walk fuel n.next

def tuples (l : PersistentList) : List Tuple := l.walk l.heap.length l.head

/-! ### Well-formed lists -/

/-- The allocation before `p`. -/
def older : Ptr → Option Ptr
  | 0 => none
  | p + 1 => some p

/-- The allocation after `p` in a heap of `n` nodes. -/
def newer (n : Nat) (p : Ptr) : Option Ptr := if p + 1 < n then some (p + 1) else none

/-- The links of a list that only grew at its head. -/
structure WellFormed (l : PersistentList) : Prop where
  head : l.head = older l.heap.length
  tail : l.tail = if l.heap.length = 0 then none else some 0
  next : ∀ (p : Nat) (n : ListNode), l.heap[p]? = some n → n.next = older p
  prev : ∀ (p : Nat) (n : ListNode), l.heap[p]? = some n → n.prev = newer l.heap.length p
  key : ∀ (p : Nat) (n : ListNode), l.heap[p]? = some n → n.key = n.obj.key

theorem wellFormed_empty : WellFormed {} :=
  ⟨rfl, rfl, fun _ _ h => by simp at h, fun _ _ h => by simp at h, fun _ _ h => by simp at h⟩

variable {l : PersistentList}

/-- What `Insert` does: a new node whose `next` is the old head, and the `prev`
    of the old head. -/
theorem insert_spec (h : WellFormed l) (entry : Tuple) :
    (l.insert entry).1 = l.heap.length ∧
      (l.insert entry).2.head = some l.heap.length ∧
      (l.insert entry).2.tail = some 0 ∧
      (l.insert entry).2.heap.length = l.heap.length + 1 ∧
      ∀ p : Nat, (l.insert entry).2.heap[p]? =
        if p = l.heap.length then some { next := l.head, key := entry.key, obj := entry }
        else (l.heap[p]?).map fun n =>
          if p + 1 = l.heap.length then { n with prev := some l.heap.length } else n := by
  have hhead := h.head
  have htail := h.tail
  cases hlen : l.heap.length with
  | zero =>
    rw [hlen] at hhead htail
    have hheap : l.heap = [] := List.length_eq_zero_iff.mp hlen
    refine ⟨?_, ?_, ?_, ?_, fun p => ?_⟩
    · simp [insert, allocate, hhead, older, hheap]
    · simp [insert, allocate, hhead, older, hheap]
    · simp [insert, allocate, hhead, older, hheap]
    · simp [insert, allocate, hhead, older, hheap]
    · cases p <;> simp [insert, allocate, hhead, older, hheap]
  | succ m =>
    rw [hlen] at hhead htail
    simp only [insert, allocate, assign, hhead, older, hlen]
    refine ⟨trivial, trivial, by simpa using htail, by simp [hlen], fun p => ?_⟩
    simp only [List.getElem?_modify, List.getElem?_append]
    grind

/-- A node of the list after `Insert` is the new node, or an old node whose
    `prev` changed when it was the head. -/
theorem insert_cases (h : WellFormed l) (entry : Tuple) {p : Nat} {n : ListNode}
    (hn : (l.insert entry).2.heap[p]? = some n) :
    (p = l.heap.length ∧ n = { next := l.head, key := entry.key, obj := entry }) ∨
    ∃ m, l.heap[p]? = some m ∧ p < l.heap.length ∧ n.next = m.next ∧ n.key = m.key ∧
      n.obj = m.obj ∧ n.prev = if p + 1 = l.heap.length then some l.heap.length else m.prev := by
  rw [(insert_spec h entry).2.2.2.2] at hn
  by_cases hp : p = l.heap.length
  · rw [if_pos hp] at hn
    exact Or.inl ⟨hp, (Option.some.inj hn).symm⟩
  · rw [if_neg hp] at hn
    obtain ⟨m, hm, rfl⟩ := Option.map_eq_some_iff.mp hn
    have hlt : p < l.heap.length := (List.getElem?_eq_some_iff.mp hm).1
    refine Or.inr ⟨m, hm, hlt, ?_⟩
    by_cases hold : p + 1 = l.heap.length <;> simp [hold]

theorem wellFormed_insert (h : WellFormed l) (entry : Tuple) :
    WellFormed (l.insert entry).2 := by
  obtain ⟨-, hhead, htail, hlen, -⟩ := insert_spec h entry
  refine ⟨?_, ?_, fun p n hn => ?_, fun p n hn => ?_, fun p n hn => ?_⟩
  · rw [hhead, hlen, older]
  · rw [htail, hlen, if_neg (Nat.succ_ne_zero _)]
  · rcases insert_cases h entry hn with ⟨rfl, rfl⟩ | ⟨m, hm, -, hnext, -⟩
    · exact h.head
    · rw [hnext, h.next p m hm]
  · rcases insert_cases h entry hn with ⟨rfl, rfl⟩ | ⟨m, hm, hlt, -, -, -, hprev⟩
    · rw [newer, hlen, if_neg (Nat.lt_irrefl _)]
    · rw [hprev, newer, hlen, if_pos (Nat.succ_lt_succ hlt)]
      by_cases hold : p + 1 = l.heap.length
      · rw [if_pos hold, hold]
      · rw [if_neg hold, h.prev p m hm, newer, if_pos (show p + 1 < l.heap.length by omega)]
  · rcases insert_cases h entry hn with ⟨rfl, rfl⟩ | ⟨m, hm, -, -, hkey, hobj, -⟩
    · rfl
    · rw [hkey, hobj, h.key p m hm]

theorem wellFormed_setObj (h : WellFormed l) {p : Nat} {m : ListNode} {value : Tuple}
    (hm : l.heap[p]? = some m) (hkey : m.obj.key = value.key) :
    WellFormed (l.setObj p value) := by
  have hlen : (l.setObj p value).heap.length = l.heap.length := List.length_modify _ _ _
  have hcases : ∀ {q : Nat} {n : ListNode}, (l.setObj p value).heap[q]? = some n →
      ∃ o, l.heap[q]? = some o ∧ n.next = o.next ∧ n.prev = o.prev ∧ n.key = o.key ∧
        n.obj.key = o.obj.key := by
    intro q n hn
    rw [setObj, assign, List.getElem?_modify] at hn
    obtain ⟨o, ho, rfl⟩ := Option.map_eq_some_iff.mp hn
    refine ⟨o, ho, ?_⟩
    by_cases hq : p = q
    · subst hq
      rw [hm] at ho
      obtain rfl := Option.some.inj ho
      simp [hkey]
    · simp [hq]
  refine ⟨?_, ?_, fun q n hn => ?_, fun q n hn => ?_, fun q n hn => ?_⟩
  · rw [hlen]
    exact h.head
  · rw [hlen]
    exact h.tail
  · obtain ⟨o, ho, hnext, -⟩ := hcases hn
    rw [hnext, h.next q o ho]
  · obtain ⟨o, ho, -, hprev, -⟩ := hcases hn
    rw [hprev, h.prev q o ho, hlen]
  · obtain ⟨o, ho, -, -, hk, hobj⟩ := hcases hn
    rw [hk, hobj, h.key q o ho]

/-! ### What following `next` visits -/

/-- The tuples in the nodes from `current` to the tail, the newest first. -/
def tuplesFrom (l : PersistentList) : Option Ptr → List Tuple
  | none => []
  | some p => ((l.heap.take (p + 1)).map ListNode.obj).reverse

theorem tuplesFrom_succ {p : Nat} {n : ListNode} (h : WellFormed l)
    (hn : l.heap[p]? = some n) : l.tuplesFrom (some p) = n.obj :: l.tuplesFrom n.next := by
  obtain ⟨hlt, hget⟩ := List.getElem?_eq_some_iff.mp hn
  have htake : l.heap.take (p + 1) = l.heap.take p ++ [n] := by
    rw [List.take_succ_eq_append_getElem hlt, hget]
  rw [tuplesFrom, htake, h.next p n hn, List.map_append, List.reverse_append]
  cases p with
  | zero => simp [older, tuplesFrom]
  | succ q => simp [older, tuplesFrom]

theorem walk_eq (h : WellFormed l) (fuel : Nat) (p : Nat) (hlt : p < l.heap.length)
    (hfuel : p < fuel) : l.walk fuel (some p) = l.tuplesFrom (some p) := by
  induction fuel generalizing p with
  | zero => omega
  | succ fuel ih =>
    have hn : l.heap[p]? = some l.heap[p] := List.getElem?_eq_getElem hlt
    rw [tuplesFrom_succ h hn, walk, hn]
    show _ :: l.walk fuel l.heap[p].next = _
    rw [h.next p _ hn]
    cases p with
    | zero => cases fuel <;> rfl
    | succ q => rw [older, ih q (by omega) (by omega)]

/-- **Following `next` from the head visits every node once, the newest first.** -/
theorem tuples_eq (h : WellFormed l) : l.tuples = (l.heap.map ListNode.obj).reverse := by
  rw [tuples, h.head]
  cases hlen : l.heap.length with
  | zero => rw [List.length_eq_zero_iff.mp hlen]; rfl
  | succ m =>
    rw [older, walk_eq h _ m (by omega) (by omega), tuplesFrom, ← hlen, List.take_length]

theorem tuplesFrom_head (h : WellFormed l) : l.tuplesFrom l.head = l.tuples := by
  rw [tuples_eq h, h.head]
  cases hlen : l.heap.length with
  | zero => rw [List.length_eq_zero_iff.mp hlen]; rfl
  | succ m => rw [older, tuplesFrom, ← hlen, List.take_length]

theorem head_mem (h : WellFormed l) {p : Nat} (hp : l.head = some p) :
    ∃ n, l.heap[p]? = some n := by
  rw [h.head] at hp
  cases hlen : l.heap.length with
  | zero => rw [hlen] at hp; cases hp
  | succ m =>
    rw [hlen] at hp
    obtain rfl := Option.some.inj hp
    exact ⟨_, List.getElem?_eq_getElem (by omega)⟩

theorem next_mem (h : WellFormed l) {p q : Nat} {n : ListNode} (hn : l.heap[p]? = some n)
    (hq : n.next = some q) : ∃ m, l.heap[q]? = some m := by
  have hlt : p < l.heap.length := (List.getElem?_eq_some_iff.mp hn).1
  rw [h.next p n hn] at hq
  cases p with
  | zero => cases hq
  | succ r =>
    obtain rfl := Option.some.inj hq
    exact ⟨_, List.getElem?_eq_getElem (by omega)⟩

@[simp] theorem tuples_empty : ({} : PersistentList).tuples = [] := rfl

theorem length_tuples (h : WellFormed l) : l.tuples.length = l.heap.length := by
  rw [tuples_eq h, List.length_reverse, List.length_map]

theorem tuples_insert (h : WellFormed l) (entry : Tuple) :
    (l.insert entry).2.tuples = entry :: l.tuples := by
  obtain ⟨-, -, -, hlen, hheap⟩ := insert_spec h entry
  have hobjs : (l.insert entry).2.heap.map ListNode.obj =
      l.heap.map ListNode.obj ++ [entry] := by
    apply List.ext_getElem?
    intro p
    rw [List.getElem?_map, hheap, List.getElem?_append, List.getElem?_map, List.length_map]
    by_cases hp : p = l.heap.length
    · simp [hp]
    · rw [if_neg hp, Option.map_map]
      by_cases hlt : p < l.heap.length
      · rw [if_pos hlt]
        congr 1
        funext n
        by_cases hold : p + 1 = l.heap.length <;> simp [hold]
      · rw [if_neg hlt, List.getElem?_eq_none (by omega), List.getElem?_eq_none (by simp; omega)]
        rfl
  rw [tuples_eq (wellFormed_insert h entry), tuples_eq h, hobjs, List.reverse_append]
  rfl

theorem tuples_setObj (h : WellFormed l) {p : Nat} {m : ListNode} {value : Tuple}
    (hm : l.heap[p]? = some m) (hkey : m.obj.key = value.key) :
    ∃ a b, l.tuples = a ++ m.obj :: b ∧ (l.setObj p value).tuples = a ++ value :: b := by
  obtain ⟨hlt, hget⟩ := List.getElem?_eq_some_iff.mp hm
  have hsplit : l.heap = l.heap.take p ++ m :: l.heap.drop (p + 1) := by
    rw [← hget, List.getElem_cons_drop, List.take_append_drop]
  refine ⟨((l.heap.drop (p + 1)).map ListNode.obj).reverse,
    ((l.heap.take p).map ListNode.obj).reverse, ?_, ?_⟩
  · rw [tuples_eq h]
    conv => lhs; rw [hsplit]
    simp
  · rw [tuples_eq (wellFormed_setObj h hm hkey), setObj, assign,
      List.modify_eq_take_cons_drop hlt]
    simp

end PersistentList

end NvrecYcsb.ListPool
