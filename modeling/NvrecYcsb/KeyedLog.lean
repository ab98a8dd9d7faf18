/-
  NvrecYcsb/KeyedLog.lean
  =======================
  **Logs of keyed records, read last writer wins.**

  A log is a list of records, each about one key.  `about k` is what the log
  says of `k`, in order; `lastFor k` is its last word.  A snapshot `Lists m E`
  of a partial map `m` is a list that says of each key exactly what `m` holds;
  the order of such a list is immaterial, which is why a table may be written
  out in block order, in append order or newest first.

  The last section is the abstract in-place store: a durable log and a live
  map.  A put overwrites the live record of its key, and may first move live
  records to the log (`Settled`).  Whatever is moved and when, the last word on
  each key is its last put (`InPlace.view_put`), and what a reader finds about a
  key is what was put, in that order, less what was overwritten
  (`InPlace.Follows`).
-/
import Mathlib.Data.List.Nodup
import Mathlib.Data.List.Perm.Basic
import Mathlib.Logic.Function.Basic
import Mathlib.Tactic.Common

namespace NvrecYcsb.KeyedLog

variable {τ κ : Type*} [DecidableEq κ] (key : τ → κ)

/-- What the log says about `k`, in log order. -/
def about (k : κ) (log : List τ) : List τ := log.filter fun t => key t = k

def lastFor (k : κ) (log : List τ) : Option τ := (about key k log).getLast?

/-! ### What a log says about one key -/

section About

variable {key} {k : κ} {t : τ} {log : List τ}

@[simp] theorem about_nil (k : κ) : about key k [] = [] := rfl

@[simp] theorem about_append (k : κ) (a b : List τ) :
    about key k (a ++ b) = about key k a ++ about key k b :=
  List.filter_append a b

theorem about_cons (k : κ) (t : τ) (log : List τ) :
    about key k (t :: log) = if key t = k then t :: about key k log else about key k log := by
  by_cases h : key t = k <;> simp [about, h]

@[simp] theorem about_cons_self (t : τ) (log : List τ) :
    about key (key t) (t :: log) = t :: about key (key t) log := by
  rw [about_cons, if_pos rfl]

theorem about_cons_ne (h : key t ≠ k) (log : List τ) :
    about key k (t :: log) = about key k log := by
  rw [about_cons, if_neg h]

theorem mem_about : t ∈ about key k log ↔ t ∈ log ∧ key t = k := by
  simp [about]

theorem about_eq_nil_iff : about key k log = [] ↔ ∀ t ∈ log, key t ≠ k := by
  simp [about, List.filter_eq_nil_iff]

theorem about_of_nodup (hnd : (log.map key).Nodup) (ht : t ∈ log) :
    about key (key t) log = [t] := by
  induction log with
  | nil => cases ht
  | cons u log ih =>
    obtain ⟨hu, hnd⟩ := List.nodup_cons.mp (List.map_cons ▸ hnd)
    rcases List.mem_cons.mp ht with rfl | ht
    · rw [about_cons_self, about_eq_nil_iff.mpr]
      intro v hv heq
      exact hu (heq ▸ List.mem_map_of_mem hv)
    · have hne : key u ≠ key t := fun heq => hu (heq ▸ List.mem_map_of_mem ht)
      rw [about_cons_ne hne, ih hnd ht]

end About

/-! ### The last word -/

section LastFor

variable {key} {k : κ} {t : τ}

@[simp] theorem lastFor_nil (k : κ) : lastFor key k [] = none := rfl

@[simp] theorem lastFor_append (k : κ) (a b : List τ) :
    lastFor key k (a ++ b) = (lastFor key k b).or (lastFor key k a) := by
  simp [lastFor, List.getLast?_append]

theorem lastFor_singleton (k : κ) (t : τ) :
    lastFor key k [t] = if key t = k then some t else none := by
  by_cases h : key t = k <;> simp [lastFor, about, h]

@[simp] theorem lastFor_singleton_self (t : τ) : lastFor key (key t) [t] = some t := by
  rw [lastFor_singleton, if_pos rfl]

theorem lastFor_singleton_ne (h : key t ≠ k) : lastFor key k [t] = none := by
  rw [lastFor_singleton, if_neg h]

theorem lastFor_congr {a b : List τ} (h : about key k a = about key k b) :
    lastFor key k a = lastFor key k b := by
  rw [lastFor, lastFor, h]

theorem key_of_lastFor {log : List τ} (h : lastFor key k log = some t) : key t = k :=
  (mem_about.mp (List.mem_of_getLast? h)).2

end LastFor

/-! ### Snapshots of a partial map -/

/-- `E` says of each key exactly what the map holds for it. -/
def Lists (m : κ → Option τ) (E : List τ) : Prop :=
  ∀ k, about key k E = (m k).toList

section Lists

variable {key} {m : κ → Option τ} {E : List τ}

theorem Lists.lastFor (h : Lists key m E) (k : κ) : lastFor key k E = m k := by
  rw [KeyedLog.lastFor, h k]
  cases m k <;> rfl

theorem Lists.mem_iff (h : Lists key m E) {t : τ} : t ∈ E ↔ m (key t) = some t := by
  have hk : t ∈ about key (key t) E ↔ t ∈ E := by simp [mem_about]
  rw [← hk, h (key t)]
  cases m (key t) <;> simp [eq_comm]

@[simp] theorem lists_empty : Lists key (fun _ : κ => none) [] := fun _ => rfl

theorem lists_of_nodup (hnd : (E.map key).Nodup) (hkey : ∀ k t, m k = some t → key t = k)
    (hmem : ∀ t, t ∈ E ↔ m (key t) = some t) : Lists key m E := by
  intro k
  cases hk : m k with
  | none =>
    rw [Option.toList_none, about_eq_nil_iff]
    intro t ht heq
    rw [hmem, heq, hk] at ht
    cases ht
  | some t =>
    obtain rfl := hkey k t hk
    exact about_of_nodup hnd ((hmem t).mpr hk)

theorem Lists.insert {A B : List τ} {t : τ} (h : Lists key m (A ++ B))
    (hnew : ∀ u ∈ A ++ B, key u ≠ key t) :
    Lists key (Function.update m (key t) (some t)) (A ++ t :: B) := by
  intro k
  have hk := h k
  rw [about_append] at hk ⊢
  by_cases hkey : k = key t
  · subst hkey
    have hnone := about_eq_nil_iff.mpr hnew
    rw [about_append, List.append_eq_nil_iff] at hnone
    rw [Function.update_self, about_cons_self, hnone.1, hnone.2]
    rfl
  · rw [Function.update_of_ne hkey, about_cons_ne (Ne.symm hkey), hk]

theorem Lists.replace {A B : List τ} {t u : τ} (h : Lists key m (A ++ u :: B))
    (hkey : key u = key t) : Lists key (Function.update m (key t) (some t)) (A ++ t :: B) := by
  intro k
  have hk := h k
  rw [about_append] at hk ⊢
  by_cases hkt : k = key t
  · subst hkt
    rw [← hkey, about_cons_self] at hk
    rw [Function.update_self, about_cons_self, ← hkey]
    cases hm : m (key u) with
    | none => rw [hm] at hk; simp at hk
    | some v =>
      rw [hm, Option.toList_some, List.append_eq_singleton_iff] at hk
      rcases hk with ⟨hA, hB⟩ | ⟨-, hB⟩
      · rw [hA, (List.cons.inj hB).2]
        rfl
      · cases hB
  · have hku : key u ≠ k := fun heq => hkt (heq.symm.trans hkey)
    rw [about_cons_ne hku] at hk
    rw [Function.update_of_ne hkt, about_cons_ne (Ne.symm hkt), hk]

/-- Where three lists make up one optional value, at most one of them is not empty. -/
theorem append_eq_toList {a b c : List τ} {o : Option τ} (h : a ++ (b ++ c) = o.toList) :
    a ++ c = (a ++ c).getLast?.toList ∧ b ++ (a ++ c) = o.toList := by
  cases o with
  | none =>
    simp only [Option.toList_none, List.append_eq_nil_iff] at h
    rw [h.1, h.2.1, h.2.2]
    exact ⟨rfl, rfl⟩
  | some v =>
    simp only [Option.toList_some, List.append_eq_singleton_iff, List.append_eq_nil_iff] at h
    rcases h with ⟨ha, ⟨hb, hc⟩ | ⟨hb, hc⟩⟩ | ⟨ha, hb, hc⟩
    · rw [ha, hb, hc]
      exact ⟨rfl, rfl⟩
    · rw [ha, hb, hc]
      exact ⟨rfl, rfl⟩
    · rw [ha, hb, hc]
      exact ⟨rfl, rfl⟩

/-- Part of a snapshot taken out: what is left is a snapshot, and each key is
    either in the part or in the rest. -/
theorem Lists.take {A T B : List τ} (h : Lists key m (A ++ (T ++ B))) :
    Lists key (fun k => KeyedLog.lastFor key k (A ++ B)) (A ++ B) ∧
      ∀ k, about key k T ++ about key k (A ++ B) = (m k).toList := by
  have hsplit : ∀ k, about key k A ++ (about key k T ++ about key k B) = (m k).toList := by
    intro k
    rw [← h k, about_append, about_append]
  refine ⟨fun k => ?_, fun k => ?_⟩
  · show about key k (A ++ B) = (about key k (A ++ B)).getLast?.toList
    rw [about_append]
    exact (append_eq_toList (hsplit k)).1
  · rw [about_append]
    exact (append_eq_toList (hsplit k)).2

end Lists

/-! ### The abstract in-place store -/

/-- A durable log, and the records the store holds live, at most one a key. -/
structure InPlace (τ κ : Type*) where
  durable : List τ
  live : κ → Option τ

namespace InPlace

variable {key}

/-- The records a reader of the store finds about `k`, in reading order. -/
def persisted (key : τ → κ) (s : InPlace τ κ) (k : κ) : List τ :=
  about key k s.durable ++ (s.live k).toList

/-- The last record a reader of the store finds about `k`. -/
def view (key : τ → κ) (s : InPlace τ κ) (k : κ) : Option τ :=
  (s.live k).or (lastFor key k s.durable)

/-- Replace the live record of the key of `t`. -/
def store (key : τ → κ) (s : InPlace τ κ) (t : τ) : InPlace τ κ :=
  { s with live := Function.update s.live (key t) (some t) }

/-- Move the whole live map to the log, listed in the order of `E`. -/
def flush (s : InPlace τ κ) (E : List τ) : InPlace τ κ :=
  ⟨s.durable ++ E, fun _ => none⟩

/-- Records may have moved from the live map to the log, none of them about `k`. -/
structure Settled (key : τ → κ) (k : κ) (s s' : InPlace τ κ) : Prop where
  persisted : ∀ j, s'.persisted key j = s.persisted key j
  durable : about key k s'.durable = about key k s.durable

/-- One put: a store over the live record of the key or beside the others, after
    records of other keys may have moved. -/
def Put (key : τ → κ) (t : τ) (s s' : InPlace τ κ) : Prop :=
  ∃ mid, Settled key (key t) s mid ∧ s' = mid.store key t

@[simp] theorem persisted_store_self (s : InPlace τ κ) (t : τ) :
    (s.store key t).persisted key (key t) = about key (key t) s.durable ++ [t] := by
  simp [persisted, store]

theorem persisted_store_ne (s : InPlace τ κ) {t : τ} {k : κ} (h : k ≠ key t) :
    (s.store key t).persisted key k = s.persisted key k := by
  simp [persisted, store, h]

theorem persisted_flush (s : InPlace τ κ) {E : List τ} (hE : Lists key s.live E) (k : κ) :
    (s.flush E).persisted key k = s.persisted key k := by
  simp [persisted, flush, hE k]

theorem Settled.refl (k : κ) (s : InPlace τ κ) : Settled key k s s := ⟨fun _ => rfl, rfl⟩

theorem Settled.trans {k : κ} {a b c : InPlace τ κ} (hab : Settled key k a b)
    (hbc : Settled key k b c) : Settled key k a c :=
  ⟨fun j => (hbc.persisted j).trans (hab.persisted j), hbc.durable.trans hab.durable⟩

theorem settled_flush {s : InPlace τ κ} {E : List τ} {k : κ} (hnew : s.live k = none)
    (hE : Lists key s.live E) : Settled key k s (s.flush E) where
  persisted := persisted_flush s hE
  durable := by
    have hk := hE k
    rw [hnew, Option.toList_none] at hk
    rw [flush, about_append, hk, List.append_nil]

theorem put_store (s : InPlace τ κ) (t : τ) : Put key t s (s.store key t) :=
  ⟨s, .refl _ s, rfl⟩

theorem put_flush {s : InPlace τ κ} {t : τ} {E : List τ} (hnew : s.live (key t) = none)
    (hE : Lists key s.live E) : Put key t s ((s.flush E).store key t) :=
  ⟨s.flush E, settled_flush hnew hE, rfl⟩

/-- What a reader finds about the key of a put: what was durable, then the put. -/
theorem persisted_put_self {s s' : InPlace τ κ} {t : τ} (h : Put key t s s') :
    s'.persisted key (key t) = about key (key t) s.durable ++ [t] := by
  obtain ⟨mid, hmid, rfl⟩ := h
  rw [persisted_store_self, hmid.durable]

theorem persisted_put_ne {s s' : InPlace τ κ} {t : τ} (h : Put key t s s') {k : κ}
    (hk : k ≠ key t) : s'.persisted key k = s.persisted key k := by
  obtain ⟨mid, hmid, rfl⟩ := h
  rw [persisted_store_ne mid hk, hmid.persisted]

theorem view_eq_getLast? (s : InPlace τ κ) (k : κ) :
    s.view key k = (s.persisted key k).getLast? := by
  rw [view, persisted, List.getLast?_append]
  cases s.live k <;> rfl

/-- **Last writer wins.**  After a put, the last word on each key is the last
    put, wherever the store chose to flush. -/
theorem view_put {s s' : InPlace τ κ} {t : τ} (h : Put key t s s') (k : κ) :
    s'.view key k = if k = key t then some t else s.view key k := by
  rw [view_eq_getLast?, view_eq_getLast?]
  by_cases hk : k = key t
  · subst hk
    rw [if_pos rfl, persisted_put_self h, List.getLast?_concat]
  · rw [if_neg hk, persisted_put_ne h hk]

/-- What a reader finds follows the history of puts: for each key it is a part
    of the history in the same order, and it ends in the last put. -/
structure Follows (key : τ → κ) (s : InPlace τ κ) (history : List τ) : Prop where
  ordered : ∀ k, (s.persisted key k).Sublist (about key k history)
  last : ∀ k, s.view key k = lastFor key k history

theorem follows_nil : Follows key (⟨[], fun _ => none⟩ : InPlace τ κ) [] :=
  ⟨fun _ => List.nil_sublist _, fun _ => rfl⟩

theorem Follows.of_persisted {s s' : InPlace τ κ} {history : List τ}
    (h : Follows key s history) (hmoved : ∀ k, s'.persisted key k = s.persisted key k) :
    Follows key s' history where
  ordered k := by
    rw [hmoved k]
    exact h.ordered k
  last k := by
    rw [view_eq_getLast?, hmoved k, ← view_eq_getLast?]
    exact h.last k

theorem Follows.put {s s' : InPlace τ κ} {t : τ} {history : List τ}
    (h : Follows key s history) (hput : Put key t s s') : Follows key s' (history ++ [t]) where
  ordered k := by
    by_cases hk : k = key t
    · subst hk
      rw [persisted_put_self hput, about_append, about_cons_self]
      have hdurable : (about key (key t) s.durable).Sublist (s.persisted key (key t)) :=
        List.sublist_append_left _ _
      exact (hdurable.trans (h.ordered (key t))).append (List.Sublist.refl _)
    · rw [persisted_put_ne hput hk, about_append, about_cons_ne (Ne.symm hk), about_nil,
        List.append_nil]
      exact h.ordered k
  last k := by
    rw [view_put hput, lastFor_append]
    by_cases hk : k = key t
    · subst hk
      rw [if_pos rfl, lastFor_singleton_self, Option.some_or]
    · rw [if_neg hk, lastFor_singleton_ne (Ne.symm hk), Option.none_or]
      exact h.last k

end InPlace

end NvrecYcsb.KeyedLog
