/-
  NvrecYcsb/HashtableInsert.lean
  ==============================
  **What an Insert that reports a conflict leaves behind** (`HashtableDB::Insert`
  of `db/hashtable_db.cc`).

  `Insert` publishes the field table of a new record before its loop, and the
  loop stores field after field until one of them is there already.  The fields
  stored before the conflict stay, and so does the record.

  * `insertAll_fst_eq_kOK_iff`: when the loop meets no conflict;
  * `getElem?_insertAll_of_present`: what the field table had, it keeps;
  * `allOrNothing_iff`: when a refused Insert has changed no read.
-/
import NvrecYcsb.HashtableDb

namespace NvrecYcsb.HashtableDb

open AtomicCalls CppRuntime RecoveryDefs Runs StlHashtable
open NvmDb (kOK kErrorNoData kErrorConflict Op)

/-! ### The loop -/

/-- No name is repeated, and none is a field of the record: as C strings. -/
def NoConflict (t : FieldHashtable) (values : List KVPair) : Prop :=
  (values.map fun fieldPair => cStr fieldPair.1).Nodup ∧
    ∀ fieldPair ∈ values, get t fieldPair.1 = none

theorem insertAll_cons_of_absent {t : FieldHashtable} {fieldPair : KVPair}
    (h : get t fieldPair.1 = none) (values : List KVPair) :
    insertAll (fieldPair :: values) t =
      insertAll values (insert t fieldPair.1 (copyString fieldPair.2)).2 := by
  simp [insertAll, insert_fst, h]

theorem insertAll_cons_of_present {t : FieldHashtable} {fieldPair : KVPair} {old : Str}
    (h : get t fieldPair.1 = some old) (values : List KVPair) :
    insertAll (fieldPair :: values) t = (kErrorConflict, t) := by
  have hkey : t[cStr fieldPair.1]? = some old := h
  simp [insertAll, StlHashtable.insert, hkey]

theorem insertAll_fst (values : List KVPair) (t : FieldHashtable) :
    (insertAll values t).1 = kOK ∨ (insertAll values t).1 = kErrorConflict := by
  induction values generalizing t with
  | nil => exact .inl rfl
  | cons fieldPair values ih =>
    cases h : get t fieldPair.1 with
    | none =>
      rw [insertAll_cons_of_absent h]
      exact ih _
    | some old =>
      rw [insertAll_cons_of_present h]
      exact .inr rfl

/-- What the loop has stored once, it never takes away. -/
theorem getElem?_insertAll_of_present (values : List KVPair) {t : FieldHashtable} {name old : Str}
    (h : t[name]? = some old) : (insertAll values t).2[name]? = some old := by
  induction values generalizing t with
  | nil => exact h
  | cons fieldPair values ih =>
    cases hfield : get t fieldPair.1 with
    | none =>
      rw [insertAll_cons_of_absent hfield]
      exact ih (getElem?_insert_of_present h _)
    | some other =>
      rw [insertAll_cons_of_present hfield]
      exact h

/-- After one field is stored the rest meets no conflict when it met none before
    and does not name that field again. -/
theorem noConflict_insert_iff {t : FieldHashtable} {fieldPair : KVPair}
    (h : get t fieldPair.1 = none) (value : Str) (values : List KVPair) :
    NoConflict (insert t fieldPair.1 value).2 values ↔ NoConflict t (fieldPair :: values) := by
  have hget : ∀ p : KVPair, get (insert t fieldPair.1 value).2 p.1 = none ↔
      cStr fieldPair.1 ≠ cStr p.1 ∧ get t p.1 = none := by
    intro p
    rw [StlHashtable.get, getElem?_insert_of_absent h]
    by_cases hname : cStr fieldPair.1 = cStr p.1
    · simp [hname]
    · simp [hname, StlHashtable.get]
  constructor
  · rintro ⟨hnodup, hrest⟩
    constructor
    · apply List.nodup_cons.mpr
      refine ⟨?_, hnodup⟩
      intro hmem
      obtain ⟨p, hp, hname⟩ := List.mem_map.mp hmem
      exact ((hget p).mp (hrest p hp)).1 hname.symm
    · intro p hp
      rcases List.mem_cons.mp hp with rfl | hp
      · exact h
      · exact ((hget p).mp (hrest p hp)).2
  · rintro ⟨hnodup, hall⟩
    obtain ⟨hnot, hnodup⟩ := List.nodup_cons.mp hnodup
    refine ⟨hnodup, ?_⟩
    intro p hp
    apply (hget p).mpr
    refine ⟨?_, hall p (List.mem_cons_of_mem _ hp)⟩
    intro hname
    exact hnot (List.mem_map.mpr ⟨p, hp, hname.symm⟩)

theorem insertAll_fst_eq_kOK_iff (values : List KVPair) (t : FieldHashtable) :
    (insertAll values t).1 = kOK ↔ NoConflict t values := by
  induction values generalizing t with
  | nil => simp [insertAll, NoConflict]
  | cons fieldPair values ih =>
    cases h : get t fieldPair.1 with
    | none => rw [insertAll_cons_of_absent h, ih, noConflict_insert_iff h]
    | some old =>
      rw [insertAll_cons_of_present h]
      constructor
      · intro hkOK
        have hcodes : kErrorConflict = kOK := hkOK
        exact absurd hcodes (by decide)
      · rintro ⟨-, hall⟩
        rw [hall fieldPair List.mem_cons_self] at h
        cases h

/-! ### Refused Inserts -/

/-- An Insert that returns `kErrorConflict` has changed what no Read returns. -/
def AllOrNothing (m : Mem) (table key : Str) (values : List KVPair) : Prop :=
  ∀ m', (insertProgram table key values).exec handle m = some (kErrorConflict, m') →
    ∀ (table' key' : Str) (fields : Option (List Str)) (result : List KVPair),
      ((read table' key' fields result).exec handle m').map Prod.fst =
        ((read table' key' fields result).exec handle m).map Prod.fst

/-- The record has the first field to store already. -/
def FirstPresent (record : Option FieldHashtable) (values : List KVPair) : Prop :=
  ∃ t fieldPair rest, record = some t ∧ values = fieldPair :: rest ∧
    (get t fieldPair.1).isSome

instance (t : FieldHashtable) (values : List KVPair) : Decidable (NoConflict t values) := by
  unfold NoConflict; infer_instance

instance : ∀ (record : Option FieldHashtable) (values : List KVPair),
    Decidable (FirstPresent record values)
  | none, _ => isFalse fun ⟨_, _, _, hrecord, _⟩ => Option.some_ne_none _ hrecord.symm
  | some _, [] => isFalse fun ⟨_, _, _, _, hvalues, _⟩ => List.cons_ne_nil _ _ hvalues.symm
  | some t, fieldPair :: rest =>
    decidable_of_iff ((get t fieldPair.1).isSome = true)
      ⟨fun h => ⟨t, fieldPair, rest, rfl, rfl, h⟩, fun ⟨_, _, _, hrecord, hvalues, h⟩ =>
        Option.some.inj hrecord ▸ (List.cons.inj hvalues).1 ▸ h⟩

/-- In memory whose records are well formed, the property is about the one record:
    what a read of it returns. -/
theorem allOrNothing_iff_read {m : Mem} (hm : m.WellFormed) (table key : Str)
    (values : List KVPair) :
    AllOrNothing m table key values ↔
      ((insertAll values ((m.recordAt (indexOf table key)).getD ∅)).1 = kErrorConflict →
        ∀ (fields : Option (List Str)) (result : List KVPair),
          readRecord (some (insertAll values ((m.recordAt (indexOf table key)).getD ∅)).2)
              fields result =
            readRecord (m.recordAt (indexOf table key)) fields result) := by
  obtain ⟨m', hexec, hbecomes⟩ := exec_insertProgram hm table key values
  constructor
  · intro h hconflict fields result
    have hrefused : (insertProgram table key values).exec handle m = some (kErrorConflict, m') := by
      rw [hexec, outcome, hconflict]
    have hread := h m' hrefused table key fields result
    rw [exec_read hbecomes.wellFormed, exec_read hm, hbecomes.recordAt, if_pos rfl] at hread
    exact Option.some.inj hread
  · intro h m'' hrefused table' key' fields result
    rw [hexec] at hrefused
    obtain ⟨hconflict, rfl⟩ := Prod.mk.inj (Option.some.inj hrefused)
    rw [exec_read hbecomes.wellFormed, exec_read hm, hbecomes.recordAt]
    by_cases hindex : indexOf table' key' = indexOf table key
    · rw [if_pos hindex, hindex]
      exact congrArg some (h hconflict fields result)
    · rw [if_neg hindex]
      rfl

/-- A record that is new, or has a new field, is read differently. -/
theorem firstPresent_of_read_eq {record : Option FieldHashtable} {values : List KVPair}
    (hconflict : (insertAll values (record.getD ∅)).1 = kErrorConflict)
    (hread : ∀ (fields : Option (List Str)) (result : List KVPair),
      readRecord (some (insertAll values (record.getD ∅)).2) fields result =
        readRecord record fields result) : FirstPresent record values := by
  cases record with
  | none =>
    have hstatus : kOK = kErrorNoData := congrArg Prod.fst (hread none [])
    exact absurd hstatus (by decide)
  | some t =>
    cases values with
    | nil =>
      have hkOK : kOK = kErrorConflict := hconflict
      exact absurd hkOK (by decide)
    | cons fieldPair rest =>
      refine ⟨t, fieldPair, rest, rfl, rfl, ?_⟩
      rw [Option.isSome_iff_ne_none]
      intro hnone
      -- the first field is stored, and a read of that field finds it
      have hstored : get (insertAll (fieldPair :: rest) t).2 fieldPair.1 =
          some (copyString fieldPair.2) := by
        rw [insertAll_cons_of_absent hnone]
        apply getElem?_insertAll_of_present
        rw [getElem?_insert_of_absent hnone, if_pos rfl]
      have hpairs := congrArg Prod.snd (hread (some [fieldPair.1]) [])
      simp [readRecord, hstored, hnone] at hpairs

/-- **A refused Insert changes nothing exactly when the first field to store is in
    the way.**  In every well-formed memory and for all values: the property holds
    when there is no conflict to report, and otherwise exactly when the record was
    there with the first field of the list. -/
theorem allOrNothing_iff {m : Mem} (hm : m.WellFormed) (table key : Str) (values : List KVPair) :
    AllOrNothing m table key values ↔
      NoConflict ((m.recordAt (indexOf table key)).getD ∅) values ∨
        FirstPresent (m.recordAt (indexOf table key)) values := by
  rw [allOrNothing_iff_read hm]
  constructor
  · intro h
    rcases insertAll_fst values ((m.recordAt (indexOf table key)).getD ∅) with hkOK | hconflict
    · exact .inl ((insertAll_fst_eq_kOK_iff values _).mp hkOK)
    · exact .inr (firstPresent_of_read_eq hconflict (h hconflict))
  · rintro (hnone | ⟨t, fieldPair, rest, hrecord, rfl, hpresent⟩) hconflict fields result
    · rw [(insertAll_fst_eq_kOK_iff values _).mpr hnone] at hconflict
      exact absurd hconflict (by decide)
    · obtain ⟨old, hold⟩ := Option.isSome_iff_exists.mp hpresent
      rw [hrecord, Option.getD_some, insertAll_cons_of_present hold]

/-- A record with one field. -/
def oneField : Mem := run step Mem.empty [.insert (str "t") (str "1") [(str "a", str "x")]]

/-- Both Inserts are refused.  The one that begins with the field that is there
    changes nothing; the other has stored its first field. -/
theorem allOrNothing_iff_oneField :
    ((insertProgram (str "t") (str "1") [(str "a", str "y"), (str "b", str "z")]).exec handle
        oneField).map Prod.fst = some kErrorConflict ∧
      AllOrNothing oneField (str "t") (str "1") [(str "a", str "y"), (str "b", str "z")] ∧
      ¬AllOrNothing oneField (str "t") (str "1") [(str "b", str "z"), (str "a", str "y")] :=
  ⟨by decide, (allOrNothing_iff (wellFormed_run _) _ _ _).mpr (by decide),
    fun h => absurd ((allOrNothing_iff (wellFormed_run _) _ _ _).mp h) (by decide)⟩

/-- The list names its field twice: the Insert is refused, and the record is there. -/
theorem not_allOrNothing_repeatedField :
    ((insertProgram (str "t") (str "1") [(str "a", str "x"), (str "a", str "y")]).exec handle
        Mem.empty).map Prod.fst = some kErrorConflict ∧
      ¬∀ (m : Mem) (table key : Str) (values : List KVPair), m.WellFormed →
        AllOrNothing m table key values := by
  refine ⟨by decide, ?_⟩
  intro h
  have hread := h Mem.empty (str "t") (str "1") [(str "a", str "x"), (str "a", str "y")]
    Mem.wellFormed_empty _ rfl (str "t") (str "1") none []
  exact absurd hread (by decide)

end NvrecYcsb.HashtableDb
