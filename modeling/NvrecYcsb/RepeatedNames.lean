/-
  NvrecYcsb/RepeatedNames.lean
  ============================
  **One update that names a field more than once**: what the tuple keeps
  (`DBToRaw`) against what the in-memory record keeps (`NVMDB::Update`).

  The merge loop replaces the whole value, so the last pair of a name wins.
  `DBToRaw` writes each value over the start of the array with `strncpy`, bounded
  by that value's own length, so the end of a longer value written earlier stays
  behind a shorter one.

  * `foldl_overwrite_padded`: an array after any number of values of its name;
  * `foldl_pasteOver_eq_last_iff`: when only the last of them is left;
  * `viewsAgree_iff`: the two views agree exactly when no value is longer than
    the last one of its name.
-/
import NvrecYcsb.NvmDb

namespace NvrecYcsb.RepeatedNames

open CppRuntime RecoveryDefs TupleCodec
open NvmDb (mergeValue lastValue lookup_foldl_mergeValue lookup_cons_pair exists_lastValue)

/-! ### Values written over each other -/

/-- A value written over the start of an earlier one. -/
def pasteOver (w v : Str) : Str := v ++ w.drop v.length

theorem length_pasteOver (w v : Str) : (pasteOver w v).length = max w.length v.length := by
  simp only [pasteOver, List.length_append, List.length_drop]
  omega

theorem overwrite_padded {v : Str} (hv : NulFree v) (w : Str) :
    overwrite (padded w) v = padded (pasteOver w v) := by
  rw [overwrite, strncpy_of_nulFree hv, padded, padded, List.drop_append, List.drop_replicate,
    length_pasteOver, pasteOver, List.append_assoc]
  congr 3
  omega

theorem foldl_overwrite_padded {vs : List Str} (hvs : ∀ v ∈ vs, NulFree v) (w : Str) :
    vs.foldl overwrite (padded w) = padded (vs.foldl pasteOver w) := by
  induction vs generalizing w with
  | nil => rfl
  | cons v vs ih =>
    obtain ⟨hv, hvs⟩ := List.forall_mem_cons.mp hvs
    rw [List.foldl_cons, List.foldl_cons, overwrite_padded hv, ih hvs]

theorem nulFree_foldl_pasteOver {vs : List Str} (hvs : ∀ v ∈ vs, NulFree v) {w : Str}
    (hw : NulFree w) : NulFree (vs.foldl pasteOver w) := by
  induction vs generalizing w with
  | nil => exact hw
  | cons v vs ih =>
    obtain ⟨hv, hvs⟩ := List.forall_mem_cons.mp hvs
    apply ih hvs
    intro hmem
    rcases List.mem_append.mp hmem with hmem | hmem
    · exact hv hmem
    · exact hw (List.mem_of_mem_drop hmem)

theorem length_foldl_pasteOver_le {vs : List Str} {n : Nat} (hvs : ∀ v ∈ vs, v.length ≤ n)
    {w : Str} (hw : w.length ≤ n) : (vs.foldl pasteOver w).length ≤ n := by
  induction vs generalizing w with
  | nil => exact hw
  | cons v vs ih =>
    obtain ⟨hv, hvs⟩ := List.forall_mem_cons.mp hvs
    apply ih hvs
    rw [length_pasteOver]
    exact max_le hw hv

theorem length_le_foldl_pasteOver (vs : List Str) (w : Str) :
    w.length ≤ (vs.foldl pasteOver w).length ∧
      ∀ v ∈ vs, v.length ≤ (vs.foldl pasteOver w).length := by
  induction vs generalizing w with
  | nil => exact ⟨le_refl _, List.forall_mem_nil _⟩
  | cons v vs ih =>
    obtain ⟨hstart, hrest⟩ := ih (pasteOver w v)
    rw [length_pasteOver] at hstart
    refine ⟨(le_max_left _ _).trans hstart, ?_⟩
    intro u hu
    rcases List.mem_cons.mp hu with rfl | hu
    · exact (le_max_right _ _).trans hstart
    · exact hrest u hu

/-- **What is left of a repeated name** is its last value exactly when none of the
    values was longer. -/
theorem foldl_pasteOver_eq_last_iff {vs : List Str} {last : Str} (h : vs.getLast? = some last) :
    vs.foldl pasteOver [] = last ↔ ∀ v ∈ vs, v.length ≤ last.length := by
  constructor
  · intro heq v hv
    have hle := (length_le_foldl_pasteOver vs []).2 v hv
    rwa [heq] at hle
  · intro hall
    obtain ⟨earlier, rfl⟩ := List.getLast?_eq_some_iff.mp h
    have hbegins : last <+: (earlier ++ [last]).foldl pasteOver [] := by
      rw [List.foldl_append]
      exact List.prefix_append _ _
    have hle := length_foldl_pasteOver_le hall (w := []) (Nat.zero_le _)
    exact (hbegins.eq_of_length_le hle).symm

/-! ### The two views -/

/-- The tuple made from the pairs is read back, and each field has the value of the
    last pair of its name in what is read as in every record that `Update` merges
    the pairs into. -/
def ViewsAgree (values : List KVPair) : Prop :=
  ∃ raw r, dbToRaw values = .returned raw ∧ rawToDB raw = .returned r ∧
    ∀ i : Fin kNumOfFields, r.lookup (fieldName i) = lastValue (fieldName i) values ∧
      ∀ storedValues : List KVPair, (values.foldl mergeValue storedValues).lookup (fieldName i) =
        (lastValue (fieldName i) values).or (storedValues.lookup (fieldName i))

/-- No value is longer than the last one of its name. -/
def LastLongest (values : List KVPair) : Prop :=
  ∀ p ∈ values, ∀ v, lastValue p.1 values = some v → p.2.length ≤ v.length

theorem lookup_filterMap_decodedPair {raw : Tuple} {len : Fin kNumOfFields → Nat}
    {is : List (Fin kNumOfFields)} (hnodup : is.Nodup) {j : Fin kNumOfFields} (hj : j ∈ is) :
    (is.filterMap fun i => decodedPair raw i (len i)).lookup (fieldName j) =
      (decodedPair raw j (len j)).map Prod.snd := by
  have hother : ∀ is : List (Fin kNumOfFields), j ∉ is →
      (is.filterMap fun i => decodedPair raw i (len i)).lookup (fieldName j) = none := by
    intro is hj
    induction is with
    | nil => rfl
    | cons i is ih =>
      obtain ⟨hne, hj⟩ := List.ne_and_not_mem_of_not_mem_cons hj
      have hname : fieldName j ≠ fieldName i := by
        intro heq
        exact hne (Fin.ext (fieldName_injective heq))
      by_cases hpos : len i > 0
      · simp [decodedPair, hpos, lookup_cons_pair, hname, ← ih hj]
      · simp [decodedPair, hpos, ← ih hj]
  induction is with
  | nil => cases hj
  | cons i is ih =>
    obtain ⟨hi, hnodup⟩ := List.nodup_cons.mp hnodup
    by_cases hij : j = i
    · subst hij
      by_cases hpos : len j > 0
      · simp [decodedPair, hpos]
      · simp [decodedPair, hpos]
        simpa [decodedPair] using hother is hi
    · have hmem : j ∈ is := by
        rcases List.mem_cons.mp hj with heq | hmem
        · exact absurd heq hij
        · exact hmem
      have hname : fieldName j ≠ fieldName i := by
        intro heq
        exact hij (Fin.ext (fieldName_injective heq))
      rw [← ih hnodup hmem]
      by_cases hpos : len i > 0
      · simp [decodedPair, hpos, lookup_cons_pair, hname]
      · simp [decodedPair, hpos]

/-- The values carried under a name, written over each other. -/
def layered (name : Str) (values : List KVPair) : Str := (valuesOf name values).foldl pasteOver []

section Views

variable {values : List KVPair} (hv : ∀ p ∈ values, FieldPair 99 p)
include hv

theorem fieldPair_of_mem_valuesOf {name v : Str} (h : v ∈ valuesOf name values) :
    FieldPair 99 (name, v) := by
  obtain ⟨p, hp, rfl⟩ := List.mem_map.mp h
  obtain ⟨hp, hname⟩ := List.mem_filter.mp hp
  have hpair := hv p hp
  rw [← decide_eq_true_eq.mp hname]
  exact hpair

/-- **The persisted view.**  Each carried field is read back as its values written
    over each other. -/
theorem decoded_eq_layered :
    ∃ raw r, dbToRaw values = .returned raw ∧ rawToDB raw = .returned r ∧
      ∀ i : Fin kNumOfFields, r.lookup (fieldName i) =
        if layered (fieldName i) values = [] then none else some (layered (fieldName i) values) := by
  obtain ⟨raw, hraw, -, -, hstr⟩ :=
    dbToRaw_spec fun p hp => (hv p hp).mono (n := kFieldSize) (by decide)
  have hnulFree : ∀ i : Fin kNumOfFields, NulFree (layered (fieldName i) values) := by
    intro i
    apply nulFree_foldl_pasteOver
    · intro v hmem
      exact (fieldPair_of_mem_valuesOf hv hmem).nulFree
    · exact List.not_mem_nil
  have hshort : ∀ i : Fin kNumOfFields, (layered (fieldName i) values).length < kFieldSize := by
    intro i
    have hle : (layered (fieldName i) values).length ≤ 99 :=
      length_foldl_pasteOver_le (fun v hmem => (fieldPair_of_mem_valuesOf hv hmem).bounded)
        (Nat.zero_le _)
    exact Nat.lt_succ_of_le hle
  have hpadded : ∀ i : Fin kNumOfFields,
      (raw.fields i).str = padded (layered (fieldName i) values) := by
    intro i
    rw [hstr i, layered, ← foldl_overwrite_padded]
    · rfl
    · intro v hmem
      exact (fieldPair_of_mem_valuesOf hv hmem).nulFree
  have hlen := fun i : Fin kNumOfFields => strlen_of_short (hnulFree i) (hshort i) (hpadded i)
  refine ⟨raw, _, hraw, rawToDB_eq hlen, ?_⟩
  intro i
  rw [lookup_filterMap_decodedPair (List.nodup_finRange _) (List.mem_finRange i), decodedPair,
    take_of_padded (hpadded i)]
  by_cases hnil : layered (fieldName i) values = []
  · simp [hnil]
  · simp [hnil, List.length_pos_iff]

/-- A field that is carried has content. -/
theorem layered_eq_nil_iff (name : Str) :
    layered name values = [] ↔ lastValue name values = none := by
  rw [lastValue, List.getLast?_eq_none_iff]
  constructor
  · intro h
    apply List.eq_nil_iff_forall_not_mem.mpr
    intro v hmem
    have hle := (length_le_foldl_pasteOver (valuesOf name values) []).2 v hmem
    have hpos := (fieldPair_of_mem_valuesOf hv hmem).nonempty
    have hzero : ((valuesOf name values).foldl pasteOver []).length = 0 :=
      List.length_eq_zero_iff.mpr h
    simp only at hpos
    omega
  · intro h
    rw [layered, h]
    rfl

/-- **The persisted and the in-memory view agree exactly when no value is longer
    than the last one of its name.**  For every list of NUL-free values of length 1
    to 99, with names repeated in any order. -/
theorem viewsAgree_iff : ViewsAgree values ↔ LastLongest values := by
  obtain ⟨raw, r, hraw, hr, hlookup⟩ := decoded_eq_layered hv
  constructor
  · rintro ⟨raw', r', hraw', hr', hagree⟩ p hp v hlast
    obtain rfl := Outcome.returned.inj (hraw.symm.trans hraw')
    obtain rfl := Outcome.returned.inj (hr.symm.trans hr')
    obtain ⟨i, hi⟩ := (hv p hp).name
    have hread := (hagree i).1
    rw [hlookup, ← hi, hlast] at hread
    split at hread
    · cases hread
    · have hlayered : layered p.1 values = v := Option.some.inj hread
      exact (foldl_pasteOver_eq_last_iff hlast).mp hlayered p.2
        (List.mem_map.mpr ⟨p, List.mem_filter.mpr ⟨hp, by simp⟩, rfl⟩)
  · intro hlongest
    refine ⟨raw, r, hraw, hr, ?_⟩
    intro i
    refine ⟨?_, fun storedValues => lookup_foldl_mergeValue values storedValues _⟩
    rw [hlookup]
    cases hlast : lastValue (fieldName i) values with
    | none => rw [if_pos ((layered_eq_nil_iff hv _).mpr hlast)]
    | some v =>
      have hne : layered (fieldName i) values ≠ [] := by
        intro hnil
        rw [(layered_eq_nil_iff hv _).mp hnil] at hlast
        cases hlast
      have hlayered : layered (fieldName i) values = v := by
        apply (foldl_pasteOver_eq_last_iff hlast).mpr
        intro u hu
        obtain ⟨p, hp, rfl⟩ := List.mem_map.mp hu
        obtain ⟨hp, hname⟩ := List.mem_filter.mp hp
        have hname : p.1 = fieldName i := decide_eq_true_eq.mp hname
        exact hlongest p hp v (by rw [hname, hlast])
      rw [if_neg hne, hlayered]

end Views

/-- A shorter value after a longer one. -/
def shorterLast : List KVPair := [(fieldName 0, str "abc"), (fieldName 0, str "x")]

theorem fieldPair_shorterLast : ∀ p ∈ shorterLast, FieldPair 99 p := by
  intro p hp
  rcases List.mem_pair.mp hp with rfl | rfl
  · exact ⟨⟨⟨0, by decide⟩, rfl⟩, by decide, by decide, by decide⟩
  · exact ⟨⟨⟨0, by decide⟩, rfl⟩, by decide, by decide, by decide⟩

theorem viewsAgree_iff_shorterLast : ViewsAgree shorterLast ↔ LastLongest shorterLast :=
  viewsAgree_iff fieldPair_shorterLast

/-- **The end of the longer value stays.**  The record in memory has `x`, and what
    was persisted is read back as `xbc`. -/
theorem not_viewsAgree_shorterLast :
    (∀ p ∈ shorterLast, FieldPair 99 p) ∧
      (dbToRaw shorterLast >>= rawToDB) = .returned [(fieldName 0, str "xbc")] ∧
      shorterLast.foldl mergeValue [] = [(fieldName 0, str "x")] ∧ ¬ViewsAgree shorterLast := by
  have hread : (dbToRaw shorterLast >>= rawToDB) = .returned [(fieldName 0, str "xbc")] := by
    decide +kernel
  refine ⟨fieldPair_shorterLast, hread, by decide, ?_⟩
  rintro ⟨raw, r, hraw, hr, hagree⟩
  rw [hraw, Outcome.returned_bind, hr] at hread
  obtain rfl := Outcome.returned.inj hread
  have hfield := (hagree ⟨0, by decide⟩).1
  revert hfield
  decide

end NvrecYcsb.RepeatedNames
