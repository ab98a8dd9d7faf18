/-
  NvrecYcsb/TupleCanonical.lean
  =============================
  **Which tuples `DBToRaw` writes back as `RawToDB` read them.**

  `RawToDB` reads each field up to the first NUL in memory, so it drops what
  stands behind a NUL and runs through full fields into their neighbours.
  `DBToRaw` fills a field up with NULs and refuses a value that is longer than a
  field.  So the two together keep the ten arrays exactly when each array is its
  own content filled up with NULs.

  * `rawToDB_eq_decoded`: the decoder on a tuple whose last field has a NUL;
  * `reproducesFields_iff_padded`: the round trip, array by array;
  * `reproducesFields_iff_canonical`: the same as a condition on the bytes.
-/
import NvrecYcsb.TupleCodec

namespace NvrecYcsb.TupleCodec

open CppRuntime RecoveryDefs

def lastField : Fin kNumOfFields := ⟨9, by decide⟩

/-- Decoding and encoding again succeeds and gives the ten arrays back. -/
def ReproducesFields (t : Tuple) : Prop :=
  ∃ raw, (rawToDB t >>= dbToRaw) = .returned raw ∧ raw.fields = t.fields

/-- Behind the first NUL there are only NULs. -/
def NulTail (str : List Byte) : Prop := ∀ b ∈ str.dropWhile (· != 0), b = 0

instance : DecidablePred NulTail := fun str =>
  inferInstanceAs (Decidable (∀ b ∈ str.dropWhile (· != 0), b = 0))

/-- Each array has only NULs behind its first, and an array without a NUL is
    followed by one that begins with a NUL. -/
structure Canonical (t : Tuple) : Prop where
  nulTail : ∀ i, NulTail (t.fields i).str
  closed : ∀ (i : Fin kNumOfFields) (hi : (i : Nat) + 1 < kNumOfFields),
    NulFree (t.fields i).str → (t.fields ⟨i + 1, hi⟩).str.head? = some 0

/-! ### C strings in memory -/

theorem strlen_of_zero_mem {mem : List Byte} (h : 0 ∈ mem) :
    strlen mem = some (mem.takeWhile (· != 0)).length := by
  induction mem with
  | nil => cases h
  | cons b mem ih =>
    by_cases hb : b = 0
    · simp [strlen, List.findIdx?_cons, hb]
    · have hmem : 0 ∈ mem := by
        rcases List.mem_cons.mp h with heq | hmem
        · exact absurd heq.symm hb
        · exact hmem
      have hlen := ih hmem
      rw [strlen] at hlen
      simp [strlen, List.findIdx?_cons, hb, hlen]

theorem takeWhile_append_of_zero_mem {str : List Byte} (h : 0 ∈ str) (mem : List Byte) :
    (str ++ mem).takeWhile (· != 0) = str.takeWhile (· != 0) := by
  rw [List.takeWhile_append, if_neg]
  intro hlen
  have hself : str.takeWhile (· != 0) = str :=
    (List.takeWhile_prefix _).eq_of_length hlen
  exact nulFree_takeWhile str (hself.symm ▸ h)

theorem takeWhile_append_of_nulFree {str : List Byte} (h : NulFree str) (mem : List Byte) :
    (str ++ mem).takeWhile (· != 0) = str ++ mem.takeWhile (· != 0) := by
  rw [List.takeWhile_append, takeWhile_of_nulFree h, if_pos rfl]

theorem takeWhile_eq_nil_iff {mem : List Byte} (h : 0 ∈ mem) :
    mem.takeWhile (· != 0) = [] ↔ mem.head? = some 0 := by
  cases mem with
  | nil => cases h
  | cons b mem =>
    by_cases hb : b = 0 <;> simp [hb]

/-- An array with only NULs behind its first is filled up from its C string. -/
theorem nulTail_iff_padded {str : List Byte} (hlen : str.length = kFieldSize) :
    NulTail str ↔ str = padded (str.takeWhile (· != 0)) := by
  have hsplit : str.takeWhile (· != 0) ++ str.dropWhile (· != 0) = str :=
    List.takeWhile_append_dropWhile
  have hdrop : (str.dropWhile (· != 0)).length =
      kFieldSize - (str.takeWhile (· != 0)).length := by
    have hsum := congrArg List.length hsplit
    rw [List.length_append] at hsum
    omega
  rw [NulTail, ← List.eq_replicate_length, hdrop, padded]
  constructor
  · intro h
    rw [← h, hsplit]
  · intro h
    rw [← hsplit] at h
    simpa using List.append_cancel_left (h.trans (by rw [hsplit]))

/-! ### The content of a field -/

/-- What `strlen` finds from field `i` on. -/
def content (t : Tuple) (i : Nat) : Str := (t.memoryFrom i).takeWhile (· != 0)

/-- The pairs that the decoder reads. -/
def decoded (t : Tuple) : List KVPair :=
  (List.finRange kNumOfFields).filterMap fun i => decodedPair t i (content t i).length

variable {t : Tuple}

theorem zero_mem_memoryFrom (hlast : 0 ∈ (t.fields lastField).str) (i : Fin kNumOfFields) :
    0 ∈ t.memoryFrom i := by
  have hmem : ∀ i : Fin kNumOfFields, lastField ∈ (List.finRange kNumOfFields).drop i := by decide
  exact List.mem_flatMap.mpr ⟨lastField, hmem i, hlast⟩

theorem content_of_zero_mem {i : Fin kNumOfFields} (h : 0 ∈ (t.fields i).str) :
    content t i = (t.fields i).str.takeWhile (· != 0) := by
  rw [content, t.memoryFrom_succ i, takeWhile_append_of_zero_mem h]

theorem content_of_nulFree {i : Fin kNumOfFields} (h : NulFree (t.fields i).str) :
    content t i = (t.fields i).str ++ content t (i + 1) := by
  rw [content, t.memoryFrom_succ i, takeWhile_append_of_nulFree h, content]

theorem take_content (t : Tuple) (i : Nat) :
    (t.memoryFrom i).take (content t i).length = content t i :=
  (List.prefix_iff_eq_take.mp (List.takeWhile_prefix _)).symm

theorem head?_memoryFrom (t : Tuple) (i : Fin kNumOfFields) :
    (t.memoryFrom i).head? = (t.fields i).str.head? := by
  have hsize := (t.fields i).size_str
  rw [t.memoryFrom_succ i]
  cases hstr : (t.fields i).str with
  | nil =>
    rw [hstr] at hsize
    cases hsize
  | cons b str => rfl

theorem content_succ_eq_nil_iff (hlast : 0 ∈ (t.fields lastField).str) {i : Fin kNumOfFields}
    (hi : (i : Nat) + 1 < kNumOfFields) :
    content t (i + 1) = [] ↔ (t.fields ⟨i + 1, hi⟩).str.head? = some 0 := by
  rw [content, takeWhile_eq_nil_iff (zero_mem_memoryFrom hlast ⟨i + 1, hi⟩)]
  exact Iff.of_eq (congrArg (· = some 0) (head?_memoryFrom t ⟨i + 1, hi⟩))

/-- An array is its own content filled up exactly when it has only NULs behind its
    first, and, when it has none, the next array begins with one. -/
theorem str_eq_padded_content_iff (hlast : 0 ∈ (t.fields lastField).str) (i : Fin kNumOfFields) :
    (t.fields i).str = padded (content t i) ↔
      NulTail (t.fields i).str ∧ ∀ hi : (i : Nat) + 1 < kNumOfFields, NulFree (t.fields i).str →
        (t.fields ⟨i + 1, hi⟩).str.head? = some 0 := by
  by_cases hzero : 0 ∈ (t.fields i).str
  · rw [content_of_zero_mem hzero, ← nulTail_iff_padded (t.fields i).size_str]
    constructor
    · intro h
      exact ⟨h, fun _ hfree => absurd hzero hfree⟩
    · intro h
      exact h.1
  · have hnext : (i : Nat) + 1 < kNumOfFields := by
      by_contra hge
      have hi : i = lastField := by
        have hlt : (i : Nat) < 10 := i.isLt
        have hge : ¬(i : Nat) + 1 < 10 := hge
        apply Fin.ext
        show (i : Nat) = 9
        omega
      exact hzero (hi ▸ hlast)
    have htail : NulTail (t.fields i).str := by
      rw [nulTail_iff_padded (t.fields i).size_str, takeWhile_of_nulFree hzero, padded,
        (t.fields i).size_str]
      simp
    rw [content_of_nulFree hzero]
    constructor
    · intro h
      refine ⟨htail, ?_⟩
      intro hi _
      rw [← content_succ_eq_nil_iff hlast hi, ← List.length_eq_zero_iff]
      have hlen := congrArg List.length h
      simp only [padded, List.length_append, List.length_replicate, length_str] at hlen
      omega
    · intro h
      have hnil := (content_succ_eq_nil_iff hlast hnext).mpr (h.2 hnext hzero)
      rw [hnil, List.append_nil, padded, (t.fields i).size_str]
      simp

/-! ### Decoding and encoding again -/

/-- **The decoder on a tuple whose last field has a NUL.** -/
theorem rawToDB_eq_decoded (hlast : 0 ∈ (t.fields lastField).str) :
    rawToDB t = .returned (decoded t) :=
  rawToDB_eq fun i => strlen_of_zero_mem (zero_mem_memoryFrom hlast i)

theorem mem_decoded {p : KVPair} :
    p ∈ decoded t ↔ ∃ i : Fin kNumOfFields, 0 < (content t i).length ∧
      p = (fieldName i, content t i) := by
  rw [decoded, List.mem_filterMap]
  constructor
  · rintro ⟨i, -, hp⟩
    rw [decodedPair, take_content] at hp
    by_cases hpos : (content t i).length > 0
    · rw [if_pos hpos] at hp
      exact ⟨i, hpos, (Option.some.inj hp).symm⟩
    · rw [if_neg hpos] at hp
      cases hp
  · rintro ⟨i, hpos, rfl⟩
    exact ⟨i, List.mem_finRange i, by rw [decodedPair, if_pos hpos, take_content]⟩

theorem nodup_decoded (t : Tuple) : ((decoded t).map Prod.fst).Nodup := by
  rw [decoded, List.map_filterMap]
  apply (List.nodup_finRange _).filterMap
  intro i j name hi hj
  have hname : ∀ k : Fin kNumOfFields,
      name ∈ (decodedPair t k (content t k).length).map Prod.fst → name = fieldName k := by
    intro k hk
    rw [decodedPair] at hk
    by_cases hpos : (content t k).length > 0
    · rw [if_pos hpos] at hk
      exact (Option.some.inj hk).symm
    · rw [if_neg hpos] at hk
      cases hk
  exact Fin.ext (fieldName_injective ((hname i hi).symm.trans (hname j hj)))

/-- The assertion of the encoder bounds every value of a list it accepts. -/
theorem length_le_of_foldlM {values : List KVPair} {start raw : Tuple}
    (h : values.foldlM dbToRawStep start = .returned raw) :
    ∀ p ∈ values, p.2.length ≤ kFieldSize := by
  induction values generalizing start with
  | nil => exact List.forall_mem_nil _
  | cons p values ih =>
    rw [List.foldlM_cons] at h
    obtain ⟨next, hstep, hrest⟩ := Outcome.bind_eq_returned.mp h
    have hp : p.2.length ≤ kFieldSize := by
      by_contra hlong
      rw [dbToRawStep] at hstep
      split at hstep
      · cases hstep
      · obtain ⟨parsed, -, hparsed⟩ := Outcome.bind_eq_returned.mp hstep
        rw [dif_neg fun hcheck => hlong hcheck.2] at hparsed
        cases hparsed
    intro q hq
    rcases List.mem_cons.mp hq with rfl | hq
    · exact hp
    · exact ih hrest q hq

/-- The encoder on the decoded pairs, when none is too long. -/
theorem dbToRaw_decoded (hshort : ∀ p ∈ decoded t, p.2.length ≤ kFieldSize) :
    ∃ raw, dbToRaw (decoded t) = .returned raw ∧ ∀ i, (raw.fields i).str = padded (content t i) := by
  have hpairs : ∀ p ∈ decoded t, FieldPair kFieldSize p := by
    intro p hp
    have hbound := hshort p hp
    obtain ⟨i, hpos, rfl⟩ := mem_decoded.mp hp
    exact ⟨⟨i, rfl⟩, nulFree_takeWhile _, hpos, hbound⟩
  obtain ⟨raw, hraw, -, -, hholds⟩ := dbToRaw_holds (nodup_decoded t) hpairs
  refine ⟨raw, hraw, ?_⟩
  intro i
  by_cases hpos : 0 < (content t i).length
  · exact hholds.carried i _ (mem_decoded.mpr ⟨i, hpos, rfl⟩)
  · have hnil : content t i = [] := List.length_eq_zero_iff.mp (Nat.eq_zero_of_not_pos hpos)
    rw [hholds.absent i, hnil]
    · rfl
    · intro hmem
      obtain ⟨p, hp, hname⟩ := List.mem_map.mp hmem
      obtain ⟨j, hposj, rfl⟩ := mem_decoded.mp hp
      rw [fieldName_injective hname] at hposj
      exact hpos hposj

theorem reproducesFields_iff_padded (hlast : 0 ∈ (t.fields lastField).str) :
    ReproducesFields t ↔ ∀ i, (t.fields i).str = padded (content t i) := by
  rw [ReproducesFields, rawToDB_eq_decoded hlast, Outcome.returned_bind]
  constructor
  · rintro ⟨raw, hraw, hfields⟩ i
    obtain ⟨raw', hraw', hstr⟩ := dbToRaw_decoded (length_le_of_foldlM hraw)
    obtain rfl := Outcome.returned.inj (hraw'.symm.trans hraw)
    rw [← hfields, hstr i]
  · intro h
    have hshort : ∀ p ∈ decoded t, p.2.length ≤ kFieldSize := by
      intro p hp
      obtain ⟨i, -, rfl⟩ := mem_decoded.mp hp
      have hlen := congrArg List.length (h i)
      simp only [padded, List.length_append, List.length_replicate, length_str] at hlen
      show (content t i).length ≤ kFieldSize
      omega
    obtain ⟨raw, hraw, hstr⟩ := dbToRaw_decoded hshort
    refine ⟨raw, hraw, ?_⟩
    funext i
    apply Field.ext_str
    rw [hstr i, ← h i]

/-- **Encoding undoes decoding exactly on the canonical tuples**, among all tuples
    whose last field has a NUL. -/
theorem reproducesFields_iff_canonical (hlast : 0 ∈ (t.fields lastField).str) :
    ReproducesFields t ↔ Canonical t := by
  rw [reproducesFields_iff_padded hlast]
  constructor
  · intro h
    constructor
    · intro i
      exact ((str_eq_padded_content_iff hlast i).mp (h i)).1
    · intro i hi
      exact ((str_eq_padded_content_iff hlast i).mp (h i)).2 hi
  · intro h i
    exact (str_eq_padded_content_iff hlast i).mpr ⟨h.nulTail i, h.closed i⟩

/-! ### Full fields and bytes behind a NUL -/

/-- A full field of `a`. -/
def fullField : Field := .ofBytes (List.replicate kFieldSize 97)

/-- A tuple that begins with these two fields; the others are empty. -/
def beginsWith (f g : Field) : Tuple :=
  { fields := fun i => if (i : Nat) = 0 then f else if (i : Nat) = 1 then g else Field.zero }

/-- A full field before an empty one comes back.  One before data does not: it is read
    into its neighbour and is too long to be written.  Nor does a field with a byte
    behind its NUL: the byte is dropped. -/
theorem reproducesFields_iff_canonical_fullFields :
    ReproducesFields (beginsWith fullField Field.zero) ∧
      ¬ReproducesFields (beginsWith fullField (.ofBytes [98])) ∧
      ¬ReproducesFields (beginsWith (.ofBytes [98, 0, 99]) fullField) := by
  refine ⟨?_, ?_, ?_⟩
  · refine (reproducesFields_iff_canonical (by decide +kernel)).mpr ⟨?_, ?_⟩
    · decide +kernel
    · decide +kernel
  · intro h
    have hclosed := ((reproducesFields_iff_canonical (by decide +kernel)).mp h).closed
      ⟨0, by decide⟩ (by decide) (by decide +kernel)
    exact absurd hclosed (by decide +kernel)
  · intro h
    have htail := ((reproducesFields_iff_canonical (by decide +kernel)).mp h).nulTail ⟨0, by decide⟩
    exact absurd htail (by decide +kernel)

end NvrecYcsb.TupleCodec
