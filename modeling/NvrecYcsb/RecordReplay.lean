/-
  NvrecYcsb/RecordReplay.lean
  ===========================
  **Replaying a log of record changes.**

  A record is a partial map from fields to values, and a change either erases
  the record or writes a patch over it.  Replay folds the changes over a record
  that may be absent.  The facts that matter downstream say when replacing a
  record in a log by its successor loses nothing: `overlay_eq_overlay_iff`
  compares two bases under one patch, and `replay_snoc` turns a log into its
  last step.  A log of many keys is replayed on a map, record by record
  (`replayLog_snoc`).
-/
import NvrecYcsb.KeyedLog

namespace NvrecYcsb.RecordReplay

open KeyedLog

variable {φ ν : Type*}

/-- The patch `p` written over the record `r`. -/
def overlay (p r : φ → Option ν) : φ → Option ν := fun f => (p f).or (r f)

def blank : φ → Option ν := fun _ => none

inductive Change (φ ν : Type*)
  | erase
  | write (patch : φ → Option ν)

/-- A write creates the record when it is absent. -/
def Change.apply : Change φ ν → Option (φ → Option ν) → Option (φ → Option ν)
  | .erase, _ => none
  | .write p, r => some (overlay p (r.getD blank))

def replay (r : Option (φ → Option ν)) : List (Change φ ν) → Option (φ → Option ν)
  | [] => r
  | c :: cs => replay (c.apply r) cs

@[simp] theorem overlay_blank (p : φ → Option ν) : overlay p blank = p := by
  funext f
  simp [overlay, blank]

/-- Two bases look alike under a patch exactly when they agree on the fields
    the patch leaves alone. -/
theorem overlay_eq_overlay_iff {p r s : φ → Option ν} :
    overlay p r = overlay p s ↔ ∀ f, p f = none → r f = s f := by
  constructor
  · intro h f hf
    have hfield := congrFun h f
    simpa [overlay, hf] using hfield
  · intro h
    funext f
    cases hf : p f with
    | none => simpa [overlay, hf] using h f hf
    | some v => simp [overlay, hf]

/-- A patch over a base gives the patch itself exactly when every field of the
    base is carried by the patch. -/
theorem overlay_eq_self_iff {p r : φ → Option ν} :
    overlay p r = p ↔ ∀ f, p f = none → r f = none := by
  have h := overlay_eq_overlay_iff (p := p) (r := r) (s := blank)
  rw [overlay_blank] at h
  exact h

@[simp] theorem replay_nil (r : Option (φ → Option ν)) : replay r [] = r := rfl

@[simp] theorem replay_append (r : Option (φ → Option ν)) (a b : List (Change φ ν)) :
    replay r (a ++ b) = replay (replay r a) b := by
  induction a generalizing r with
  | nil => rfl
  | cons c a ih => exact ih (c.apply r)

theorem replay_snoc (r : Option (φ → Option ν)) (cs : List (Change φ ν)) (c : Change φ ν) :
    replay r (cs ++ [c]) = c.apply (replay r cs) := by
  rw [replay_append]
  rfl

/-! ### Logs of many keys -/

section ReplayLog

variable {τ κ : Type*} [DecidableEq κ] (key : τ → κ) (change : τ → Change φ ν)

def replayLog (m : κ → Option (φ → Option ν)) (log : List τ) : κ → Option (φ → Option ν) :=
  log.foldl (fun m t => Function.update m (key t) ((change t).apply (m (key t)))) m

@[simp] theorem replayLog_nil (m : κ → Option (φ → Option ν)) :
    replayLog key change m [] = m := rfl

theorem replayLog_snoc (m : κ → Option (φ → Option ν)) (log : List τ) (t : τ) :
    replayLog key change m (log ++ [t]) = Function.update (replayLog key change m log) (key t)
      ((change t).apply (replayLog key change m log (key t))) := by
  rw [replayLog, List.foldl_append]
  rfl

/-- A store that put a record holds, for its key, the change on top of what is
    durable. -/
theorem replay_put_self {st st' : InPlace τ κ} {t : τ} (h : InPlace.Put key t st st') :
    replay none ((st'.persisted key (key t)).map change) =
      (change t).apply (replay none ((about key (key t) st.durable).map change)) := by
  rw [InPlace.persisted_put_self h, List.map_append, List.map_singleton, replay_snoc]

end ReplayLog

end NvrecYcsb.RecordReplay
