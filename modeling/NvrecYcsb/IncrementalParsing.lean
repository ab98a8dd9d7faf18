/-
  NvrecYcsb/IncrementalParsing.lean
  =================================
  **Items in a text that arrives in pieces.**

  A parser looks at a text and finds a whole item at its beginning, or the beginning
  of one, or a failure.  More text never changes what it has found, but for the
  beginning of an item.

  * `readAll`: the items of a text, one after another;
  * `Offline`: a reader that keeps the whole text it was fed, and counts the items it
    has handed out;
  * `Follows`: a reader that keeps something else stands where the `Offline` one does
    when, whatever text is to come, it would read on as that one.
-/
import Mathlib.Data.List.Basic
import Mathlib.Tactic.Common

namespace NvrecYcsb.IncrementalParsing

variable {β α γ ε : Type*}

/-- What a parser finds at the beginning of a text. -/
inductive Parsed (β α ε : Type*) where
  | complete (item : α) (rest : List β)
  | incomplete
  | failed (e : ε)

namespace Parsed

/-- The same with more text after what is left. -/
def append : Parsed β α ε → List β → Parsed β α ε
  | complete item rest, more => complete item (rest ++ more)
  | incomplete, _ => incomplete
  | failed e, _ => failed e

/-- Goes on with the item that was found. -/
def bind : Parsed β α ε → (α → List β → Parsed β γ ε) → Parsed β γ ε
  | complete item rest, f => f item rest
  | incomplete, _ => incomplete
  | failed e, _ => failed e

@[simp] theorem append_complete (item : α) (rest more : List β) :
    (complete item rest : Parsed β α ε).append more = complete item (rest ++ more) := rfl

@[simp] theorem append_failed (e : ε) (more : List β) :
    (failed e : Parsed β α ε).append more = failed e := rfl

@[simp] theorem complete_bind (item : α) (rest : List β) (f : α → List β → Parsed β γ ε) :
    (complete item rest).bind f = f item rest := rfl

@[simp] theorem incomplete_bind (f : α → List β → Parsed β γ ε) :
    incomplete.bind f = incomplete := rfl

@[simp] theorem failed_bind (e : ε) (f : α → List β → Parsed β γ ε) :
    (failed e).bind f = failed e := rfl

theorem bind_assoc {δ : Type*} (x : Parsed β α ε) (f : α → List β → Parsed β γ ε)
    (g : γ → List β → Parsed β δ ε) :
    (x.bind f).bind g = x.bind fun item rest => (f item rest).bind g := by
  cases x <;> rfl

theorem bind_complete (x : Parsed β α ε) : x.bind complete = x := by cases x <;> rfl

/-- An item was found by both steps. -/
theorem bind_eq_complete {x : Parsed β α ε} {f : α → List β → Parsed β γ ε} {item : γ}
    {rest : List β} (h : x.bind f = complete item rest) :
    ∃ a mid, x = complete a mid ∧ f a mid = complete item rest := by
  cases x with
  | complete a mid => exact ⟨a, mid, rfl, h⟩
  | incomplete => cases h
  | failed e => cases h

end Parsed

/-! ### Parsers -/

/-- **More text does not change what was found.** -/
def Stable (parse : List β → Parsed β α ε) : Prop :=
  ∀ text more, parse text ≠ .incomplete → parse (text ++ more) = (parse text).append more

/-- One parser after another. -/
theorem Stable.bind {parse : List β → Parsed β α ε} {next : α → List β → Parsed β γ ε}
    (hparse : Stable parse) (hnext : ∀ item, Stable (next item)) :
    Stable fun text => (parse text).bind next := by
  intro text more h
  cases hfound : parse text with
  | complete item rest =>
    simp only [hfound, Parsed.complete_bind] at h
    have htext := hparse text more (by simp [hfound])
    simp only [htext, hfound, Parsed.append_complete, Parsed.complete_bind]
    exact hnext item rest more h
  | incomplete => simp [hfound] at h
  | failed e =>
    have htext := hparse text more (by simp [hfound])
    simp only [htext, hfound, Parsed.append_failed, Parsed.failed_bind]

/-- What is left of a text is no longer than the text. -/
def NoLonger (parse : List β → Parsed β α ε) : Prop :=
  ∀ ⦃text item rest⦄, parse text = .complete item rest → rest.length ≤ text.length

theorem NoLonger.bind {parse : List β → Parsed β α ε} {next : α → List β → Parsed β γ ε}
    (hparse : NoLonger parse) (hnext : ∀ item, NoLonger (next item)) :
    NoLonger fun text => (parse text).bind next := by
  intro text item rest h
  obtain ⟨a, mid, hmid, hrest⟩ := Parsed.bind_eq_complete h
  exact Nat.le_trans (hnext a hrest) (hparse hmid)

theorem stable_complete (item : α) : Stable (Parsed.complete item : List β → Parsed β α ε) :=
  fun _ _ _ => rfl

theorem stable_failed (e : ε) : Stable fun _ : List β => (Parsed.failed e : Parsed β α ε) :=
  fun _ _ _ => rfl

theorem noLonger_complete (item : α) :
    NoLonger (Parsed.complete item : List β → Parsed β α ε) := by
  intro text a rest h
  cases h
  exact Nat.le_refl _

/-- A parser of items that are not empty. -/
structure Parser (β α ε : Type*) where
  parse : List β → Parsed β α ε
  stable : Stable parse
  shorter : ∀ {text item rest}, parse text = .complete item rest → rest.length < text.length

/-- The items of a text, and the failure that it comes to after them. -/
structure Reading (α ε : Type*) where
  items : List α
  failure : Option ε

/-- The same after other items. -/
def Reading.after (items : List α) (r : Reading α ε) : Reading α ε :=
  { r with items := items ++ r.items }

@[simp] theorem Reading.nil_after (r : Reading α ε) : r.after [] = r := rfl

theorem Reading.after_after (items items' : List α) (r : Reading α ε) :
    (r.after items').after items = r.after (items ++ items') := by
  simp [Reading.after]

namespace Parser

variable (p : Parser β α ε)

/-- The items of a text, one after another. -/
def readAll (text : List β) : Reading α ε :=
  match _h : p.parse text with
  | .complete item rest => (readAll rest).after [item]
  | .incomplete => ⟨[], none⟩
  | .failed e => ⟨[], some e⟩
termination_by text.length
decreasing_by exact p.shorter ‹_›

/-- How the reading goes on when the first item was parsed. -/
def readOn : Parsed β α ε → Reading α ε
  | .complete item rest => (p.readAll rest).after [item]
  | .incomplete => ⟨[], none⟩
  | .failed e => ⟨[], some e⟩

theorem readAll_eq (text : List β) : p.readAll text = p.readOn (p.parse text) := by
  rw [readAll, readOn.eq_def]
  split <;> simp [*]

/-- The reading of a longer text goes on where that of its beginning stopped. -/
theorem readAll_append (text more : List β) :
    ((p.readAll text).failure = none ∧
        ∃ rest, p.readAll (text ++ more) = (p.readAll rest).after (p.readAll text).items) ∨
      (p.readAll text).failure ≠ none ∧ p.readAll (text ++ more) = p.readAll text := by
  induction text using Parser.readAll.induct p with
  | case1 text item rest hparse ih =>
    have hmore : p.parse (text ++ more) = .complete item (rest ++ more) := by
      rw [p.stable text more (by simp [hparse]), hparse, Parsed.append_complete]
    rw [p.readAll_eq text, hparse, p.readAll_eq (text ++ more), hmore, readOn, readOn]
    rcases ih with ⟨hfailure, rest', hrest⟩ | ⟨hfailure, hrest⟩
    · left
      refine ⟨hfailure, rest', ?_⟩
      rw [hrest, Reading.after_after]
      rfl
    · exact .inr ⟨hfailure, by rw [hrest]⟩
  | case2 text hparse =>
    rw [p.readAll_eq text, hparse]
    exact .inl ⟨rfl, text ++ more, rfl⟩
  | case3 text e hparse =>
    have hmore : p.parse (text ++ more) = .failed e := by
      rw [p.stable text more (by simp [hparse]), hparse, Parsed.append_failed]
    rw [p.readAll_eq text, hparse, p.readAll_eq (text ++ more), hmore]
    exact .inr ⟨by simp [readOn], rfl⟩

/-- **The beginning of a text** holds the first of its items, and no other failure. -/
theorem prefix_readAll {text whole : List β} (h : text <+: whole)
    (hwhole : (p.readAll whole).failure = none) :
    (p.readAll text).failure = none ∧ (p.readAll text).items <+: (p.readAll whole).items := by
  obtain ⟨more, rfl⟩ := h
  rcases p.readAll_append text more with ⟨hfailure, rest, hrest⟩ | ⟨hfailure, hmore⟩
  · exact ⟨hfailure, by rw [hrest]; exact List.prefix_append _ _⟩
  · rw [hmore] at hwhole
    exact absurd hwhole hfailure

end Parser

/-! ### The reader that keeps everything -/

/-- The text fed, the number of items handed out, and the failure that was
    reported. -/
structure Offline (β ε : Type*) where
  text : List β := []
  taken : Nat := 0
  failure : Option ε := none

/-- What a reader answers when it is asked for an item. -/
inductive Answer (α ε : Type*) where
  | nothing
  | item (a : α)
  | failed (e : ε)

namespace Offline

/-- More text; none is taken after a failure was reported. -/
def feed (o : Offline β ε) (chunk : List β) : Offline β ε :=
  match o.failure with
  | none => { o with text := o.text ++ chunk }
  | some _ => o

/-- The next item of the text fed, if there is one. -/
def next (p : Parser β α ε) (o : Offline β ε) : Answer α ε × Offline β ε :=
  match o.failure with
  | some e => (.failed e, o)
  | none =>
    match (p.readAll o.text).items[o.taken]? with
    | some a => (.item a, { o with taken := o.taken + 1 })
    | none =>
      match (p.readAll o.text).failure with
      | none => (.nothing, o)
      | some e => (.failed e, { o with failure := some e })

end Offline

/-! ### Other readers -/

/-- Where a reader stands: what it would find in the text to come, after the items
    that were handed out. -/
def Follows (p : Parser β α ε) (o : Offline β ε) (finds : List β → Parsed β α ε) : Prop :=
  o.failure = none ∧ ∃ got : List α, got.length = o.taken ∧
    ∀ more, p.readAll (o.text ++ more) = (p.readOn (finds more)).after got

section Follows

variable {p : Parser β α ε} {o : Offline β ε} {finds : List β → Parsed β α ε}

theorem follows_new : Follows p ({} : Offline β ε) p.parse :=
  ⟨rfl, [], rfl, fun more => p.readAll_eq more⟩

theorem Follows.feed (h : Follows p o finds) (chunk : List β) :
    Follows p (o.feed chunk) fun more => finds (chunk ++ more) := by
  obtain ⟨hfailure, got, htaken, hreads⟩ := h
  simp only [Follows, Offline.feed, hfailure, List.append_assoc]
  exact ⟨trivial, got, htaken, fun more => hreads (chunk ++ more)⟩

/-- What the text fed holds. -/
theorem Follows.readAll (h : Follows p o finds) :
    ∃ got : List α, got.length = o.taken ∧
      p.readAll o.text = (p.readOn (finds [])).after got := by
  obtain ⟨_, got, htaken, hreads⟩ := h
  refine ⟨got, htaken, ?_⟩
  simpa using hreads []

/-- The reader needs more text. -/
theorem Follows.nothing (h : Follows p o finds) (hfinds : finds [] = .incomplete) :
    o.next p = (.nothing, o) := by
  obtain ⟨got, htaken, hreads⟩ := h.readAll
  simp [Offline.next, h.1, hreads, hfinds, Parser.readOn, Reading.after, ← htaken]

/-- The reader has come to a failure. -/
theorem Follows.failed {e : ε} (h : Follows p o finds) (hfinds : finds [] = .failed e) :
    o.next p = (.failed e, { o with failure := some e }) := by
  obtain ⟨got, htaken, hreads⟩ := h.readAll
  simp [Offline.next, h.1, hreads, hfinds, Parser.readOn, Reading.after, ← htaken]

/-- The reader has an item, and what is left of its text. -/
theorem Follows.item {a : α} {rest : List β} (h : Follows p o finds)
    (hfinds : ∀ more, finds more = .complete a (rest ++ more)) :
    o.next p = (.item a, { o with taken := o.taken + 1 }) ∧
      Follows p { o with taken := o.taken + 1 } fun more => p.parse (rest ++ more) := by
  constructor
  · obtain ⟨got, htaken, hreads⟩ := h.readAll
    simp [Offline.next, h.1, hreads, hfinds [], Parser.readOn, Reading.after, ← htaken]
  · obtain ⟨hfailure, got, htaken, hreads⟩ := h
    refine ⟨hfailure, got ++ [a], by simp [htaken], ?_⟩
    intro more
    rw [hreads, hfinds, Parser.readOn, Reading.after_after, ← Parser.readAll_eq]

/-- After a failure the same is reported again. -/
theorem next_of_failure {e : ε} (h : o.failure = some e) : o.next p = (.failed e, o) := by
  simp [Offline.next, h]

end Follows

end NvrecYcsb.IncrementalParsing
