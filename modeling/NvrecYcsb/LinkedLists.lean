/-
  NvrecYcsb/LinkedLists.lean
  ==========================
  **Lists that are linked both ways.**

  Links lead from a place to the next one, or nowhere.  A path is the list of the
  places met when a link is followed; it is determined by where it starts.  A list
  is linked both ways when one link leads from its head through all its places and
  the other leads from its tail through them in reverse.

  * `Path.unique`, `path_append`: what a link visits, and in parts;
  * `follow_eq_some_iff`: following a link to its end takes as many turns as its path
    has places;
  * `DoublyLinked.singleton`, `DoublyLinked.prepend`: a first place, and a place in
    front of the head.
-/
import Mathlib.Data.List.Nodup

namespace NvrecYcsb.LinkedLists

variable {P : Type} {link next prev : P → Option P}

/-! ### Paths -/

/-- Following `link` from `start` visits the places in order and comes to `stop`. -/
def Path (link : P → Option P) : Option P → List P → Option P → Prop
  | start, [], stop => start = stop
  | start, p :: ps, stop => start = some p ∧ Path link (link p) ps stop

@[simp] theorem path_nil {start stop : Option P} : Path link start [] stop ↔ start = stop := Iff.rfl

@[simp] theorem path_cons {start stop : Option P} {p : P} {ps : List P} :
    Path link start (p :: ps) stop ↔ start = some p ∧ Path link (link p) ps stop := Iff.rfl

theorem path_append {start stop : Option P} {ps qs : List P} :
    Path link start (ps ++ qs) stop ↔
      ∃ mid, Path link start ps mid ∧ Path link mid qs stop := by
  induction ps generalizing start with
  | nil => simp
  | cons p ps ih => simp [ih, and_assoc]

/-- A path that ends nowhere is all that its start leads to. -/
theorem Path.unique {start : Option P} {ps qs : List P} (hps : Path link start ps none)
    (hqs : Path link start qs none) : ps = qs := by
  induction ps generalizing start qs with
  | nil =>
    obtain rfl : start = none := hps
    cases qs with
    | nil => rfl
    | cons q qs => exact absurd hqs.1 (by simp)
  | cons p ps ih =>
    obtain ⟨rfl, hrest⟩ := hps
    cases qs with
    | nil => exact absurd hqs (by simp)
    | cons q qs =>
      obtain ⟨hq, hqs⟩ := hqs
      obtain rfl := Option.some.inj hq
      rw [ih hrest hqs]

/-- Links that are the same at the places of a path have the same path. -/
theorem Path.congr {link' : P → Option P} {start stop : Option P} {ps : List P}
    (h : Path link start ps stop) (hlink : ∀ p ∈ ps, link' p = link p) :
    Path link' start ps stop := by
  induction ps generalizing start with
  | nil => exact h
  | cons p ps ih =>
    obtain ⟨hstart, hrest⟩ := h
    refine ⟨hstart, ?_⟩
    rw [hlink p List.mem_cons_self]
    exact ih hrest fun q hq => hlink q (List.mem_cons_of_mem p hq)

theorem Path.start_eq {start : Option P} {ps : List P} (h : Path link start ps none) :
    start = ps.head? := by
  cases ps with
  | nil => exact h
  | cons p ps => exact h.1

/-! ### Following a link -/

/-- The places met when `link` is followed from `start`, if it ends in so many turns. -/
def follow (link : P → Option P) : Nat → Option P → Option (List P)
  | _, none => some []
  | 0, some _ => none
  | fuel + 1, some p => (follow link fuel (link p)).map fun ps => p :: ps

/-- What was visited when following a link ends. -/
theorem path_of_follow {fuel : Nat} {start : Option P} {ps : List P}
    (h : follow link fuel start = some ps) : Path link start ps none ∧ ps.length ≤ fuel := by
  induction fuel generalizing start ps with
  | zero =>
    cases start with
    | none =>
      cases h
      exact ⟨rfl, Nat.le_refl _⟩
    | some p => cases h
  | succ fuel ih =>
    cases start with
    | none =>
      cases h
      exact ⟨rfl, Nat.zero_le _⟩
    | some p =>
      obtain ⟨rest, hrest, rfl⟩ := Option.map_eq_some_iff.mp h
      obtain ⟨hpath, hlen⟩ := ih hrest
      exact ⟨⟨rfl, hpath⟩, Nat.succ_le_succ hlen⟩

theorem follow_of_path {start : Option P} {ps : List P} (h : Path link start ps none) {fuel : Nat}
    (hfuel : ps.length ≤ fuel) : follow link fuel start = some ps := by
  induction ps generalizing start fuel with
  | nil =>
    obtain rfl : start = none := h
    cases fuel <;> rfl
  | cons p ps ih =>
    obtain ⟨rfl, hrest⟩ := h
    obtain ⟨fuel, rfl⟩ : ∃ n, fuel = n + 1 := by
      cases fuel with
      | zero => exact absurd hfuel (by simp)
      | succ n => exact ⟨n, rfl⟩
    rw [follow, ih hrest (Nat.le_of_succ_le_succ hfuel), Option.map_some]

/-- **Following a link ends** exactly when it has a turn for each place of its path, and
    it has visited these. -/
theorem follow_eq_some_iff {start : Option P} {ps qs : List P} (h : Path link start ps none)
    {fuel : Nat} : follow link fuel start = some qs ↔ ps.length ≤ fuel ∧ qs = ps := by
  constructor
  · intro hfollow
    obtain ⟨hqs, hlen⟩ := path_of_follow hfollow
    obtain rfl := h.unique hqs
    exact ⟨hlen, rfl⟩
  · rintro ⟨hlen, rfl⟩
    exact follow_of_path h hlen

/-! ### Both ways -/

/-- `next` leads from `head` through the nodes and `prev` leads from `tail` through
    them in reverse. -/
structure DoublyLinked (next prev : P → Option P) (head tail : Option P) (nodes : List P) :
    Prop where
  nodup : nodes.Nodup
  forward : Path next head nodes none
  backward : Path prev tail nodes.reverse none

namespace DoublyLinked

variable {head tail : Option P} {nodes : List P}

theorem nil : DoublyLinked next prev none none [] := ⟨List.nodup_nil, rfl, rfl⟩

theorem head_eq (h : DoublyLinked next prev head tail nodes) : head = nodes.head? :=
  h.forward.start_eq

theorem tail_eq (h : DoublyLinked next prev head tail nodes) : tail = nodes.getLast? := by
  rw [h.backward.start_eq, List.head?_reverse]

theorem head_eq_none_iff (h : DoublyLinked next prev head tail nodes) :
    head = none ↔ nodes = [] := by
  rw [h.head_eq, List.head?_eq_none_iff]

theorem tail_eq_none_iff (h : DoublyLinked next prev head tail nodes) :
    tail = none ↔ nodes = [] := by
  rw [h.tail_eq, List.getLast?_eq_none_iff]

/-- **The first place.** -/
theorem singleton {p : P} (hnext : next p = none) (hprev : prev p = none) :
    DoublyLinked next prev (some p) (some p) [p] :=
  ⟨List.nodup_singleton p, ⟨rfl, hnext⟩, ⟨rfl, hprev⟩⟩

/-- **A place in front of the head**: its `next` is the old head, whose `prev` it
    becomes, and no other link between the places changes. -/
theorem prepend {next' prev' : P → Option P} {p oldHead : P} {rest : List P}
    (h : DoublyLinked next prev head tail (oldHead :: rest)) (hp : p ∉ oldHead :: rest)
    (hnext : ∀ q ∈ oldHead :: rest, next' q = next q) (hprev : ∀ q ∈ rest, prev' q = prev q)
    (hp_next : next' p = some oldHead) (hold : prev' oldHead = some p) (hp_prev : prev' p = none) :
    DoublyLinked next' prev' (some p) tail (p :: oldHead :: rest) := by
  refine ⟨List.nodup_cons.mpr ⟨hp, h.nodup⟩, ⟨rfl, ?_⟩, ?_⟩
  · have hforward := h.forward
    rw [h.head_eq, List.head?_cons] at hforward
    rw [hp_next]
    exact hforward.congr hnext
  · have hbackward := h.backward
    rw [List.reverse_cons, path_append] at hbackward
    obtain ⟨mid, hrest, hlast⟩ := hbackward
    -- the old path is kept up to the old head, where it now goes on
    rw [List.reverse_cons, List.reverse_cons, List.append_assoc, path_append]
    refine ⟨mid, hrest.congr fun q hq => hprev q (List.mem_reverse.mp hq), hlast.1, ?_⟩
    simp [hold, hp_prev]

end DoublyLinked

end NvrecYcsb.LinkedLists
