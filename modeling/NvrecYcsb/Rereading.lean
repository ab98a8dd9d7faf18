/-
  NvrecYcsb/Rereading.lean
  ========================
  **Reading part of a log twice.**

  A log that is moved to another place can be found in both, whole or in part, when
  the move was cut short.  Replaying some records of a log, in any order, and then
  the log itself gives what the log alone gives (`replay_of_subset`): the last
  record about a field decides, and it comes last in either case.

  `SameReplay` compares two logs by what they rebuild, whatever a record means.
-/
import NvrecYcsb.RecordReplay
import Mathlib.Data.List.Induction

namespace NvrecYcsb.Rereading

open KeyedLog RecordReplay

variable {φ ν : Type*}

/-! ### One key -/

/-- The two records agree on all that the changes leave alone. -/
def AgreeUnder (cs : List (Change φ ν)) (r s : Option (φ → Option ν)) : Prop :=
  .erase ∈ cs ∨ ((cs = [] → r.isSome = s.isSome) ∧
    ∀ f, (∀ p, .write p ∈ cs → p f = none) → r.getD blank f = s.getD blank f)

theorem eq_of_agree {r s : Option (φ → Option ν)} (hsome : r.isSome = s.isSome)
    (hfields : ∀ f, r.getD blank f = s.getD blank f) : r = s := by
  cases r with
  | none =>
    cases s with
    | none => rfl
    | some s => simp at hsome
  | some r =>
    cases s with
    | none => simp at hsome
    | some s =>
      congr 1
      funext f
      exact hfields f

theorem AgreeUnder.apply {c : Change φ ν} {cs : List (Change φ ν)} {r s : Option (φ → Option ν)}
    (h : AgreeUnder (c :: cs) r s) : AgreeUnder cs (c.apply r) (c.apply s) := by
  cases c with
  | erase => exact .inr ⟨fun _ => rfl, fun _ _ => rfl⟩
  | write p =>
    rcases h with herase | ⟨-, hfields⟩
    · left
      simpa using herase
    · refine .inr ⟨fun _ => rfl, ?_⟩
      intro f hf
      show overlay p (r.getD blank) f = overlay p (s.getD blank) f
      cases hp : p f with
      | some v => simp [overlay, hp]
      | none =>
        have hbase := hfields f (by simpa [hp] using hf)
        simpa [overlay, hp] using hbase

theorem replay_eq_of_agreeUnder {cs : List (Change φ ν)} {r s : Option (φ → Option ν)}
    (h : AgreeUnder cs r s) : replay r cs = replay s cs := by
  induction cs generalizing r s with
  | nil =>
    rcases h with herase | ⟨hsome, hfields⟩
    · cases herase
    · exact eq_of_agree (hsome rfl) fun f => hfields f (by simp)
  | cons c cs ih => exact ih h.apply

/-- Writes leave a field alone that none of them carries. -/
theorem replay_field {cs : List (Change φ ν)} (herase : .erase ∉ cs) {f : φ}
    (hf : ∀ p, .write p ∈ cs → p f = none) (r : Option (φ → Option ν)) :
    (replay r cs).getD blank f = r.getD blank f := by
  induction cs generalizing r with
  | nil => rfl
  | cons c cs ih =>
    cases c with
    | erase => simp at herase
    | write p =>
      have hp : p f = none := hf p (by simp)
      have hrest := ih (by simpa using herase) (fun q hq => hf q (by simp [hq]))
        (some (overlay p (r.getD blank)))
      show (replay (some (overlay p (r.getD blank))) cs).getD blank f = _
      rw [hrest]
      simp [overlay, hp]

/-- **Rereading.**  Changes that all stand in a log may come before it. -/
theorem replay_of_subset {ps cs : List (Change φ ν)} (h : ps ⊆ cs) (r : Option (φ → Option ν)) :
    replay (replay r ps) cs = replay r cs := by
  apply replay_eq_of_agreeUnder
  by_cases herase : .erase ∈ cs
  · exact .inl herase
  · refine .inr ⟨?_, ?_⟩
    · rintro rfl
      simp [List.subset_nil.mp h]
    · intro f hf
      exact replay_field (fun hmem => herase (h hmem)) (fun p hp => hf p (h hp)) r

/-! ### Logs of many keys -/

section ManyKeys

variable {τ κ : Type*} [DecidableEq κ] {key : τ → κ}

theorem replayLog_apply (change : τ → Change φ ν) (m : κ → Option (φ → Option ν)) (log : List τ)
    (k : κ) : replayLog key change m log k = replay (m k) ((about key k log).map change) := by
  induction log generalizing m with
  | nil => rfl
  | cons t log ih =>
    show replayLog key change (Function.update m (key t) ((change t).apply (m (key t)))) log k = _
    rw [ih, about_cons]
    by_cases hk : key t = k
    · subst hk
      simp [replay]
    · simp [hk, Function.update_of_ne (Ne.symm hk)]

variable (key) in
/-- The two logs rebuild the same from the same, whatever their records mean. -/
def SameReplay (a b : List τ) : Prop :=
  ∀ (φ ν : Type) (change : τ → Change φ ν) (m : κ → Option (φ → Option ν)),
    replayLog key change m a = replayLog key change m b

theorem replayLog_append (change : τ → Change φ ν) (m : κ → Option (φ → Option ν)) (a b : List τ) :
    replayLog key change m (a ++ b) = replayLog key change (replayLog key change m a) b :=
  List.foldl_append

namespace SameReplay

variable {a b c : List τ}

theorem refl (a : List τ) : SameReplay key a a := fun _ _ _ _ => rfl

theorem of_eq (h : a = b) : SameReplay key a b := h ▸ refl a

theorem symm (h : SameReplay key a b) : SameReplay key b a :=
  fun φ ν change m => (h φ ν change m).symm

theorem trans (h : SameReplay key a b) (h' : SameReplay key b c) : SameReplay key a c :=
  fun φ ν change m => (h φ ν change m).trans (h' φ ν change m)

theorem append_right (h : SameReplay key a b) (c : List τ) : SameReplay key (a ++ c) (b ++ c) := by
  intro φ ν change m
  rw [replayLog_append, replayLog_append, h φ ν change m]

/-- **A part of a log, read before it, changes nothing.** -/
theorem reread {part log : List τ} (h : part ⊆ log) (before : List τ) :
    SameReplay key (before ++ part ++ log) (before ++ log) := by
  intro φ ν change m
  rw [List.append_assoc, replayLog_append, replayLog_append, replayLog_append]
  funext k
  simp only [replayLog_apply]
  apply replay_of_subset
  intro c hc
  obtain ⟨t, ht, rfl⟩ := List.mem_map.mp hc
  obtain ⟨hmem, hkey⟩ := mem_about.mp ht
  exact List.mem_map_of_mem (mem_about.mpr ⟨h hmem, hkey⟩)

/-- Logs that rebuild the same end in the same record of each key. -/
theorem lastFor_eq {τ : Type} {key : τ → κ} {a b : List τ} (h : SameReplay key a b) (k : κ) :
    lastFor key k a = lastFor key k b := by
  -- a record is read as the one field it writes: itself
  have hread : ∀ log : List τ,
      (replayLog key (fun t => .write fun _ : Unit => some t) (fun _ => none) log k).bind (· ()) =
        lastFor key k log := by
    intro log
    induction log using List.reverseRecOn with
    | nil => rfl
    | append_singleton log t ih =>
      rw [replayLog_snoc, lastFor_append]
      by_cases hk : key t = k
      · subst hk
        simp [Change.apply, overlay]
      · rw [Function.update_of_ne (Ne.symm hk), ih, lastFor_singleton_ne hk, Option.none_or]
  rw [← hread a, ← hread b, h Unit τ]

end SameReplay

end ManyKeys

end NvrecYcsb.Rereading
