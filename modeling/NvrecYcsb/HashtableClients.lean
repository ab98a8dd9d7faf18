/-
  NvrecYcsb/HashtableClients.lean
  ===============================
  **Clients that insert and update at the same time** (`db/hashtable_db.cc` over
  `lib/lock_stl_hashtable.h`).

  A client looks up the record, makes one when it finds none, publishes it, and
  then writes its fields one call at a time; between any two of its calls other
  clients make theirs.  Nobody deletes.  An operation that has returned `kOK` has
  lost nothing when each field it wrote is there, with its value or the value of
  an operation that had not returned when it began.

  The one thing that loses writes is a record published a second time: the key
  table keeps the first, and what the client then writes goes to a field table
  that nobody finds.

  * `Progress`: how far an operation is, and what it has achieved by then;
  * `keepsWrites_run`: nothing is lost while records are published once;
  * `not_keepsWrites_publishedTwice`: two clients that both saw no record.
-/
import NvrecYcsb.HashtableDb

namespace NvrecYcsb.HashtableClients

open AtomicCalls CppRuntime RecoveryDefs Runs StlHashtable HashtableDb
open NvmDb (kOK kErrorNoData kErrorConflict)

inductive Kind
  | insert
  | update

/-- An `Insert` or an `Update`. -/
structure Write where
  kind : Kind
  table : Str
  key : Str
  values : List KVPair

namespace Write

def program (op : Write) : Prog Call Int :=
  match op.kind with
  | .insert => insertProgram op.table op.key op.values
  | .update => updateProgram op.table op.key op.values

def index (op : Write) : Str := indexOf op.table op.key

/-- The loop over the fields of a record that the operation has made. -/
def body (op : Write) (p : Ptr) : Prog Call Int :=
  match op.kind with
  | .insert => insertFields p op.values
  | .update => addFields p op.values

/-- The fields the operation writes, as C strings. -/
def fields (op : Write) : List (Str × Str) :=
  op.values.map fun fieldPair => (cStr fieldPair.1, copyString fieldPair.2)

end Write

abbrev Clients := Pool Call Write Int Mem

def Clients.init : Clients := ⟨Mem.empty, []⟩

def Clients.step : Clients → Event Write → Clients := Pool.step handle Write.program

/-- The operation writes the value to the field of the record of the index. -/
def Carried (s : Clients) (m : Nat) (index field value : Str) : Prop :=
  ∃ r : Running Call Write Int, s.ops[m]? = some r ∧ r.op.index = index ∧
    (field, value) ∈ r.op.fields

/-- **No write is lost.**  When an operation has returned `kOK`, every field it wrote
    is in the field table that `key_table_` holds for the record, with its value or
    the value of an operation that had not returned when it began. -/
def KeepsWrites (s : Clients) : Prop :=
  ∀ (n : Nat) (r : Running Call Write Int), s.ops[n]? = some r → r.prog.result = some kOK →
    ∀ w ∈ r.op.fields, ∃ t value, s.mem.recordAt r.op.index = some t ∧ t[w.1]? = some value ∧
      ∃ m, m ∉ r.doneBefore ∧ Carried s m r.op.index w.1 value

/-- The index that the program publishes a record under with its next call. -/
def publishing : Prog Call Int → Option Str
  | .call (.keyInsert key _) _ => some (cStr key)
  | _ => none

def publishedNext (s : Clients) (client : Nat) : Option Str :=
  (s.current client).bind fun n => s.ops[n]?.bind fun r => publishing r.prog

/-- The event does not publish a record that is there. -/
def PublishesAbsent (s : Clients) : Event Write → Prop
  | .begin _ _ => True
  | .call client => ∀ index, publishedNext s client = some index → s.mem.keyTable[index]? = none

instance : ∀ s e, Decidable (PublishesAbsent s e)
  | _, .begin _ _ => isTrue trivial
  | s, .call client =>
    match h : publishedNext s client with
    | none => isTrue fun _ hindex => absurd (h.symm.trans hindex) (Option.some_ne_none _).symm
    | some index => decidable_of_iff (s.mem.keyTable[index]? = none) (by
        constructor
        · intro hnone index' hindex
          rw [h] at hindex
          exact Option.some.inj hindex ▸ hnone
        · intro hall
          exact hall index h)

/-! ### What has been achieved -/

/-- The field is in the table, with a value written for it by an operation that is
    not among `before`. -/
def Covered (s : Clients) (before : List Nat) (index : Str) (p : Ptr) (field : Str) : Prop :=
  ∃ t value, s.mem.tableAt p = some t ∧ t[field]? = some value ∧
    ∃ m, m ∉ before ∧ Carried s m index field value

/-- The field is covered when it is there at all. -/
def Clean (s : Clients) (before : List Nat) (index : Str) (p : Ptr) (field : Str) : Prop :=
  ∀ t value, s.mem.tableAt p = some t → t[field]? = some value →
    Covered s before index p field

/-- How far an operation is, `home` being the record that each field table was made
    for, and what it has achieved by then. -/
inductive Progress (home : Ptr → Str) (s : Clients) (op : Write)
    (before : List Nat) : Prog Call Int → Prop
  | looking : Progress home s op before op.program
  | creating : Progress home s op before (newRecord (op.table ++ op.key) op.body)
  | publishing (p : Ptr) (hhome : home p = op.index) (hlive : ∃ t, s.mem.tableAt p = some t)
      (hclean : ∀ field, Clean s before op.index p field) :
      Progress home s op before (.call (.keyInsert (op.table ++ op.key) p) fun _ => op.body p)
  | inserting (p : Ptr) (done rest : List KVPair) (hvalues : op.values = done ++ rest)
      (hkey : s.mem.keyTable[op.index]? = some p)
      (hdone : ∀ w ∈ done, Covered s before op.index p (cStr w.1)) :
      Progress home s op before (insertFields p rest)
  | adding (p : Ptr) (done rest : List KVPair) (hvalues : op.values = done ++ rest)
      (hkey : s.mem.keyTable[op.index]? = some p)
      (hdone : ∀ w ∈ done, Covered s before op.index p (cStr w.1))
      (hclean : ∀ field, Clean s before op.index p field) :
      Progress home s op before (addFields p rest)
  | updating (p : Ptr) (done rest : List KVPair) (hvalues : op.values = done ++ rest)
      (hkey : s.mem.keyTable[op.index]? = some p)
      (hdone : ∀ w ∈ done, Covered s before op.index p (cStr w.1)) :
      Progress home s op before (updateFields p rest)
  | completing (p : Ptr) (done : List KVPair) (w : KVPair) (rest : List KVPair)
      (hvalues : op.values = done ++ w :: rest)
      (hkey : s.mem.keyTable[op.index]? = some p)
      (hdone : ∀ w ∈ done, Covered s before op.index p (cStr w.1))
      (hclean : Clean s before op.index p (cStr w.1)) :
      Progress home s op before
        (.call (.fieldInsert p w.1 (copyString w.2)) fun _ => updateFields p rest)
  | returned (status : Int) (hok : status = kOK → ∃ p, s.mem.keyTable[op.index]? = some p ∧
      ∀ w ∈ op.values, Covered s before op.index p (cStr w.1)) :
      Progress home s op before (.ret status)

/-- What holds in every state of a run that publishes records once. -/
structure Good (home : Ptr → Str) (s : Clients) : Prop where
  published : ∀ (index : Str) (p : Ptr), s.mem.keyTable[index]? = some p →
    home p = index ∧ ∃ t, s.mem.tableAt p = some t
  past : s.PastFinished
  progress : ∀ (n : Nat) (r : Running Call Write Int), s.ops[n]? = some r →
    Progress home s r.op r.doneBefore r.prog

/-- What a step may do: records stay published where they are, field tables keep
    their fields, and a value that is new in a field was written for it by an
    operation that is in nobody's past. -/
structure Evolves (home home' : Ptr → Str) (s s' : Clients) : Prop where
  carried : ∀ m index field value, Carried s m index field value →
    Carried s' m index field value
  keys : ∀ (index : Str) (p : Ptr), s.mem.keyTable[index]? = some p →
    s'.mem.keyTable[index]? = some p
  homes : ∀ p t, s.mem.tableAt p = some t → home' p = home p
  tables : ∀ p t, s.mem.tableAt p = some t → ∃ t', s'.mem.tableAt p = some t' ∧
    (∀ (field value : Str), t[field]? = some value → ∃ value', t'[field]? = some value') ∧
    ∀ (field value : Str), t'[field]? = some value → t[field]? = some value ∨
      ∃ m, (∀ (n : Nat) (r : Running Call Write Int), s.ops[n]? = some r → m ∉ r.doneBefore) ∧
        Carried s' m (home p) field value

section Evolution

variable {home home' : Ptr → Str} {s s' : Clients} {n : Nat} {r : Running Call Write Int}
  {p : Ptr} {field : Str}

theorem Covered.evolve (he : Evolves home home' s s') (hr : s.ops[n]? = some r)
    (hhome : home p = r.op.index) (h : Covered s r.doneBefore r.op.index p field) :
    Covered s' r.doneBefore r.op.index p field := by
  obtain ⟨t, value, ht, hvalue, m, hm, hcarried⟩ := h
  obtain ⟨t', ht', hkeep, hnew⟩ := he.tables p t ht
  obtain ⟨value', hvalue'⟩ := hkeep field value hvalue
  rcases hnew field value' hvalue' with hold | ⟨m', hm', hcarried'⟩
  · obtain rfl := Option.some.inj (hvalue.symm.trans hold)
    exact ⟨t', value, ht', hvalue', m, hm, he.carried m _ _ _ hcarried⟩
  · rw [hhome] at hcarried'
    exact ⟨t', value', ht', hvalue', m', hm' n r hr, hcarried'⟩

/-- The fields an operation is done with stay covered. -/
theorem Covered.evolve_all {done : List KVPair} (he : Evolves home home' s s')
    (hr : s.ops[n]? = some r) (hhome : home p = r.op.index)
    (hdone : ∀ w ∈ done, Covered s r.doneBefore r.op.index p (cStr w.1)) :
    ∀ w ∈ done, Covered s' r.doneBefore r.op.index p (cStr w.1) := by
  intro w hw
  exact (hdone w hw).evolve he hr hhome

/-- And the one it has just written joins them. -/
theorem Covered.evolve_concat {done : List KVPair} {w : KVPair} (he : Evolves home home' s s')
    (hr : s.ops[n]? = some r) (hhome : home p = r.op.index)
    (hdone : ∀ w ∈ done, Covered s r.doneBefore r.op.index p (cStr w.1))
    (hw : Covered s' r.doneBefore r.op.index p (cStr w.1)) :
    ∀ w' ∈ done ++ [w], Covered s' r.doneBefore r.op.index p (cStr w'.1) := by
  intro w' hw'
  rcases List.mem_append.mp hw' with hw' | hw'
  · exact Covered.evolve_all he hr hhome hdone w' hw'
  · obtain rfl := List.mem_singleton.mp hw'
    exact hw

theorem Clean.evolve (he : Evolves home home' s s') (hr : s.ops[n]? = some r)
    (hhome : home p = r.op.index) (hlive : ∃ t, s.mem.tableAt p = some t)
    (h : Clean s r.doneBefore r.op.index p field) :
    Clean s' r.doneBefore r.op.index p field := by
  obtain ⟨t, ht⟩ := hlive
  obtain ⟨t', ht', -, hnew⟩ := he.tables p t ht
  intro t'' value ht'' hvalue
  obtain rfl := Option.some.inj (ht'.symm.trans ht'')
  rcases hnew field value hvalue with hold | ⟨m, hm, hcarried⟩
  · exact (h t value ht hold).evolve he hr hhome
  · rw [hhome] at hcarried
    exact ⟨t', value, ht', hvalue, m, hm n r hr, hcarried⟩

/-- The progress of an operation outlives the steps of others. -/
theorem Progress.evolve (hs : Good home s) (he : Evolves home home' s s')
    (hr : s.ops[n]? = some r) {prog : Prog Call Int} (h : Progress home s r.op r.doneBefore prog) :
    Progress home' s' r.op r.doneBefore prog := by
  have hthere : ∀ p, s.mem.keyTable[r.op.index]? = some p →
      home p = r.op.index ∧ ∃ t, s.mem.tableAt p = some t := fun p => hs.published _ p
  cases h with
  | looking => exact .looking
  | creating => exact .creating
  | publishing p hhome hlive hclean =>
    obtain ⟨t, ht⟩ := hlive
    obtain ⟨t', ht', -⟩ := he.tables p t ht
    refine .publishing p ((he.homes p t ht).trans hhome) ⟨t', ht'⟩ ?_
    intro field
    exact (hclean field).evolve he hr hhome ⟨t, ht⟩
  | inserting p done rest hvalues hkey hdone =>
    exact .inserting p done rest hvalues (he.keys _ p hkey)
      (Covered.evolve_all he hr (hthere p hkey).1 hdone)
  | adding p done rest hvalues hkey hdone hclean =>
    refine .adding p done rest hvalues (he.keys _ p hkey)
      (Covered.evolve_all he hr (hthere p hkey).1 hdone) ?_
    intro field
    exact (hclean field).evolve he hr (hthere p hkey).1 (hthere p hkey).2
  | updating p done rest hvalues hkey hdone =>
    exact .updating p done rest hvalues (he.keys _ p hkey)
      (Covered.evolve_all he hr (hthere p hkey).1 hdone)
  | completing p done w rest hvalues hkey hdone hclean =>
    exact .completing p done w rest hvalues (he.keys _ p hkey)
      (Covered.evolve_all he hr (hthere p hkey).1 hdone)
      (hclean.evolve he hr (hthere p hkey).1 (hthere p hkey).2)
  | returned status hok =>
    refine .returned status ?_
    intro hstatus
    obtain ⟨p, hkey, hall⟩ := hok hstatus
    exact ⟨p, he.keys _ p hkey, Covered.evolve_all he hr (hthere p hkey).1 hall⟩

end Evolution

/-! ### A call of an operation -/

/-- The clients after a call of the operation `n`. -/
def Clients.moved (s : Clients) (n : Nat) (r : Running Call Write Int) (mem : Mem)
    (prog : Prog Call Int) : Clients :=
  { mem := mem, ops := s.ops.set n { r with prog := prog } }

section Calls

variable {home : Ptr → Str} {s : Clients} {n : Nat} {r : Running Call Write Int}
  (hr : s.ops[n]? = some r)
include hr

theorem carried_moved (mem : Mem) (prog : Prog Call Int) {m : Nat} {index field value : Str}
    (h : Carried s m index field value) : Carried (s.moved n r mem prog) m index field value := by
  obtain ⟨rm, hrm, hindex, hfield⟩ := h
  by_cases hnm : n = m
  · subst hnm
    obtain rfl := Option.some.inj (hr.symm.trans hrm)
    refine ⟨{ r with prog := prog }, ?_, hindex, hfield⟩
    exact (Pool.getElem?_set_running hr prog n).trans (if_pos rfl)
  · refine ⟨rm, ?_, hindex, hfield⟩
    exact (Pool.getElem?_set_running hr prog m).trans ((if_neg hnm).trans hrm)

theorem carried_own (mem : Mem) (prog : Prog Call Int) {w : KVPair} (hw : w ∈ r.op.values) :
    Carried (s.moved n r mem prog) n r.op.index (cStr w.1) (copyString w.2) := by
  refine ⟨{ r with prog := prog }, ?_, rfl, List.mem_map_of_mem hw⟩
  exact (Pool.getElem?_set_running hr prog n).trans (if_pos rfl)

theorem evolves_same (prog : Prog Call Int) : Evolves home home s (s.moved n r s.mem prog) where
  carried := fun _ _ _ _ => carried_moved hr s.mem prog
  keys := fun _ _ h => h
  homes := fun _ _ _ => rfl
  tables := fun _ t ht => ⟨t, ht, fun _ value hvalue => ⟨value, hvalue⟩, fun _ _ => Or.inl⟩

theorem evolves_new (prog : Prog Call Int) (index : Str) :
    Evolves home (Function.update home s.mem.fieldTables.length index) s
      (s.moved n r { s.mem with fieldTables := s.mem.fieldTables ++ [some ∅] } prog) := by
  have hold : ∀ p t, s.mem.tableAt p = some t → p ≠ s.mem.fieldTables.length := by
    rintro p t ht rfl
    rw [Mem.tableAt, List.getElem?_eq_none (le_refl _)] at ht
    cases ht
  refine ⟨fun _ _ _ _ => carried_moved hr _ prog, fun _ _ h => h, ?_, ?_⟩
  · intro p t ht
    exact Function.update_of_ne (hold p t ht) _ _
  · intro p t ht
    refine ⟨t, ?_, fun _ value hvalue => ⟨value, hvalue⟩, fun _ _ => Or.inl⟩
    exact (Mem.tableAt_append _ s.mem p).trans ((if_neg (hold p t ht)).trans ht)

theorem evolves_publish (prog : Prog Call Int) (key : Str) (p : Ptr) :
    Evolves home home s
      (s.moved n r { s.mem with keyTable := (insert s.mem.keyTable key p).2 } prog) := by
  refine ⟨fun _ _ _ _ => carried_moved hr _ prog, ?_, fun _ _ _ => rfl, ?_⟩
  · intro index q hq
    exact getElem?_insert_of_present hq p
  · intro q t ht
    exact ⟨t, ht, fun _ value hvalue => ⟨value, hvalue⟩, fun _ _ => Or.inl⟩

/-- A call on a field table that keeps its fields and writes what the operation carries. -/
theorem evolves_table (hrunning : ∀ (k : Nat) (rk : Running Call Write Int),
      s.ops[k]? = some rk → n ∉ rk.doneBefore) (prog : Prog Call Int) {p : Ptr}
    {t t' : FieldHashtable} (ht : s.mem.tableAt p = some t) (hhome : home p = r.op.index)
    (hkeep : ∀ (field value : Str), t[field]? = some value → ∃ value', t'[field]? = some value')
    (hnew : ∀ (field value : Str), t'[field]? = some value → t[field]? = some value ∨
      ∃ w ∈ r.op.values, cStr w.1 = field ∧ copyString w.2 = value) :
    Evolves home home s (s.moved n r (s.mem.setTable p t') prog) := by
  refine ⟨fun _ _ _ _ => carried_moved hr _ prog, fun _ _ h => h, fun _ _ _ => rfl, ?_⟩
  intro q tq htq
  by_cases hpq : p = q
  · subst hpq
    obtain rfl := Option.some.inj (ht.symm.trans htq)
    refine ⟨t', Mem.tableAt_setTable_self ht t', hkeep, ?_⟩
    intro field value hvalue
    rcases hnew field value hvalue with hold | ⟨w, hw, rfl, rfl⟩
    · exact Or.inl hold
    · rw [hhome]
      exact Or.inr ⟨n, hrunning, carried_own hr _ prog hw⟩
  · refine ⟨tq, ?_, fun _ value hvalue => ⟨value, hvalue⟩, fun _ _ => Or.inl⟩
    exact (Mem.tableAt_setTable ht t' q).trans ((if_neg hpq).trans htq)

variable (hrunning : ∀ (k : Nat) (rk : Running Call Write Int),
    s.ops[k]? = some rk → n ∉ rk.doneBefore)
include hrunning

theorem evolves_insert (prog : Prog Call Int) {p : Ptr} {t : FieldHashtable} {w : KVPair}
    (hw : w ∈ r.op.values) (ht : s.mem.tableAt p = some t) (hhome : home p = r.op.index) :
    Evolves home home s
      (s.moved n r (s.mem.setTable p (insert t w.1 (copyString w.2)).2) prog) := by
  refine evolves_table hr hrunning prog ht hhome ?_ ?_
  · intro field value hvalue
    exact ⟨value, getElem?_insert_of_present hvalue _⟩
  · intro field value hvalue
    rw [getElem?_insert] at hvalue
    by_cases hfield : cStr w.1 = field ∧ t[field]? = none
    · rw [if_pos hfield] at hvalue
      exact Or.inr ⟨w, hw, hfield.1, Option.some.inj hvalue⟩
    · rw [if_neg hfield] at hvalue
      exact Or.inl hvalue

theorem evolves_update (prog : Prog Call Int) {p : Ptr} {t : FieldHashtable} {w : KVPair}
    (hw : w ∈ r.op.values) (ht : s.mem.tableAt p = some t) (hhome : home p = r.op.index) :
    Evolves home home s
      (s.moved n r (s.mem.setTable p (update t w.1 (copyString w.2)).2) prog) := by
  refine evolves_table hr hrunning prog ht hhome ?_ ?_
  · intro field value hvalue
    rw [getElem?_update, hvalue]
    by_cases hfield : cStr w.1 = field
    · exact ⟨copyString w.2, by rw [if_pos hfield, Option.map_some]⟩
    · exact ⟨value, by rw [if_neg hfield]⟩
  · intro field value hvalue
    rw [getElem?_update] at hvalue
    by_cases hfield : cStr w.1 = field
    · rw [if_pos hfield] at hvalue
      obtain ⟨-, -, hcopy⟩ := Option.map_eq_some_iff.mp hvalue
      exact Or.inr ⟨w, hw, hfield, hcopy⟩
    · rw [if_neg hfield] at hvalue
      exact Or.inl hvalue

/-- What is in a field after the call that wrote it is the operation's own. -/
theorem covered_own (mem : Mem) (prog : Prog Call Int) {p : Ptr} {t : FieldHashtable} {w : KVPair}
    (hw : w ∈ r.op.values) (ht : mem.tableAt p = some t)
    (hvalue : t[cStr w.1]? = some (copyString w.2)) :
    Covered (s.moved n r mem prog) r.doneBefore r.op.index p (cStr w.1) :=
  ⟨t, copyString w.2, ht, hvalue, n, hrunning n r hr, carried_own hr mem prog hw⟩

/-- A field that was clean is covered once `Insert` has been called for it, whether
    the call wrote it or found it there. -/
theorem covered_insert (prog : Prog Call Int) {p : Ptr} {t : FieldHashtable} {w : KVPair}
    (hw : w ∈ r.op.values) (ht : s.mem.tableAt p = some t) (hhome : home p = r.op.index)
    (hclean : Clean s r.doneBefore r.op.index p (cStr w.1)) :
    Covered (s.moved n r (s.mem.setTable p (insert t w.1 (copyString w.2)).2) prog)
      r.doneBefore r.op.index p (cStr w.1) := by
  cases hvalue : t[cStr w.1]? with
  | some value =>
    have he := evolves_insert hr hrunning prog hw ht hhome
    exact (hclean t value ht hvalue).evolve he hr hhome
  | none =>
    refine covered_own hr hrunning _ prog hw (Mem.tableAt_setTable_self ht _) ?_
    rw [getElem?_insert_of_absent hvalue, if_pos rfl]

end Calls

/-- A call keeps what holds of the records, and brings its operation forward. -/
structure Advances (home home' : Ptr → Str) (s s' : Clients) (r : Running Call Write Int)
    (prog : Prog Call Int) : Prop where
  evolves : Evolves home home' s s'
  published : ∀ (index : Str) (p : Ptr), s'.mem.keyTable[index]? = some p →
    home' p = index ∧ ∃ t, s'.mem.tableAt p = some t
  progress : Progress home' s' r.op r.doneBefore prog

theorem published_of_keyTable {home home' : Ptr → Str} {s s' : Clients} (hs : Good home s)
    (he : Evolves home home' s s') (hkeys : s'.mem.keyTable = s.mem.keyTable) (index : Str)
    (p : Ptr) (hp : s'.mem.keyTable[index]? = some p) :
    home' p = index ∧ ∃ t, s'.mem.tableAt p = some t := by
  rw [hkeys] at hp
  obtain ⟨hhome, t, ht⟩ := hs.published index p hp
  obtain ⟨t', ht', -⟩ := he.tables p t ht
  exact ⟨(he.homes p t ht).trans hhome, t', ht'⟩

theorem mem_of_eq_append {values done rest : List KVPair} {w : KVPair}
    (h : values = done ++ w :: rest) : w ∈ values := by
  rw [h]
  exact List.mem_append_right _ List.mem_cons_self

section Advance

variable {home : Ptr → Str} {s : Clients} {n : Nat} {r : Running Call Write Int}
  (hs : Good home s) (hr : s.ops[n]? = some r)
include hs hr

theorem advance_found (p : Ptr) (hkey : s.mem.keyTable[r.op.index]? = some p) :
    ∃ prog, r.op.program.step handle s.mem = some (prog, s.mem) ∧
      Advances home home s (s.moved n r s.mem prog) r prog := by
  have he : ∀ prog, Evolves home home s (s.moved n r s.mem prog) := evolves_same hr
  have hpub : ∀ prog, _ := fun prog => published_of_keyTable hs (he prog) rfl
  obtain ⟨client, ⟨kind, table, key, values⟩, doneBefore, prog₀⟩ := r
  cases kind with
  | insert =>
    refine ⟨insertFields p values, step_call handle (handle_keyGet hkey), he _, hpub _, ?_⟩
    exact .inserting p [] values rfl hkey (List.forall_mem_nil _)
  | update =>
    refine ⟨updateFields p values, step_call handle (handle_keyGet hkey), he _, hpub _, ?_⟩
    exact .updating p [] values rfl hkey (List.forall_mem_nil _)

theorem advance_absent (hnone : s.mem.keyTable[r.op.index]? = none) :
    ∃ prog, r.op.program.step handle s.mem = some (prog, s.mem) ∧
      Advances home home s (s.moved n r s.mem prog) r prog := by
  have he : ∀ prog, Evolves home home s (s.moved n r s.mem prog) := evolves_same hr
  have hpub : ∀ prog, _ := fun prog => published_of_keyTable hs (he prog) rfl
  refine ⟨newRecord (r.op.table ++ r.op.key) r.op.body, ?_, he _, hpub _, .creating⟩
  obtain ⟨client, ⟨kind, table, key, values⟩, doneBefore, prog₀⟩ := r
  cases kind with
  | insert => exact step_call handle (handle_keyGet hnone)
  | update => exact step_call handle (handle_keyGet hnone)

theorem advance_creating :
    ∃ home' prog mem,
      (newRecord (r.op.table ++ r.op.key) r.op.body).step handle s.mem = some (prog, mem) ∧
      Advances home home' s (s.moved n r mem prog) r prog := by
  have htable : Mem.tableAt ⟨s.mem.keyTable, s.mem.fieldTables ++ [some ∅]⟩
      s.mem.fieldTables.length = some ∅ := by
    rw [Mem.tableAt_append, if_pos rfl]
  have he : ∀ prog, Evolves home _ s _ := fun prog => evolves_new hr prog r.op.index
  refine ⟨_, _, _, rfl, he _, published_of_keyTable hs (he _) rfl, ?_⟩
  refine .publishing s.mem.fieldTables.length (Function.update_self _ _ _) ⟨∅, htable⟩ ?_
  intro field t value ht hvalue
  obtain rfl := Option.some.inj (htable.symm.trans ht)
  rw [Std.ExtTreeMap.getElem?_empty] at hvalue
  cases hvalue

theorem advance_publishing {p : Ptr} (hhome : home p = r.op.index)
    (hlive : ∃ t, s.mem.tableAt p = some t)
    (hclean : ∀ field, Clean s r.doneBefore r.op.index p field)
    (hnone : s.mem.keyTable[r.op.index]? = none) :
    ∃ mem, (Prog.call (.keyInsert (r.op.table ++ r.op.key) p) fun _ => r.op.body p).step handle
        s.mem = some (r.op.body p, mem) ∧
      Advances home home s (s.moved n r mem (r.op.body p)) r (r.op.body p) := by
  have he : Evolves home home s _ :=
    evolves_publish hr (r.op.body p) (r.op.table ++ r.op.key) p
  have hget : ∀ index, (insert s.mem.keyTable (r.op.table ++ r.op.key) p).2[index]? =
      if r.op.index = index then some p else s.mem.keyTable[index]? :=
    getElem?_insert_of_absent hnone p
  have hkey : (insert s.mem.keyTable (r.op.table ++ r.op.key) p).2[r.op.index]? = some p := by
    rw [hget, if_pos rfl]
  refine ⟨_, rfl, he, ?_, ?_⟩
  · intro index q hq
    have hq' := (hget index).symm.trans hq
    by_cases h : r.op.index = index
    · rw [if_pos h] at hq'
      obtain rfl := Option.some.inj hq'
      exact ⟨hhome.trans h, hlive⟩
    · rw [if_neg h] at hq'
      exact hs.published index q hq'
  · have hclean' : ∀ field, Clean (s.moved n r { s.mem with
        keyTable := (insert s.mem.keyTable (r.op.table ++ r.op.key) p).2 } (r.op.body p))
        r.doneBefore r.op.index p field :=
      fun field => (hclean field).evolve he hr hhome hlive
    obtain ⟨client, ⟨kind, table, key, values⟩, doneBefore, prog₀⟩ := r
    cases kind with
    | insert => exact .inserting p [] values rfl hkey (List.forall_mem_nil _)
    | update => exact .adding p [] values rfl hkey (List.forall_mem_nil _) hclean'

variable (hrunning : ∀ (k : Nat) (rk : Running Call Write Int),
    s.ops[k]? = some rk → n ∉ rk.doneBefore)
include hrunning

section Loops

variable {p : Ptr} {done : List KVPair} {w : KVPair} {rest : List KVPair}
  (hvalues : r.op.values = done ++ w :: rest) (hkey : s.mem.keyTable[r.op.index]? = some p)
  (hdone : ∀ w ∈ done, Covered s r.doneBefore r.op.index p (cStr w.1))
include hvalues hkey hdone

theorem advance_inserting :
    ∃ prog mem, (insertFields p (w :: rest)).step handle s.mem = some (prog, mem) ∧
      Advances home home s (s.moved n r mem prog) r prog := by
  obtain ⟨hhome, t, ht⟩ := hs.published _ p hkey
  have hw : w ∈ r.op.values := mem_of_eq_append hvalues
  have he := fun prog => evolves_insert hr hrunning prog hw ht hhome
  have hstep : (insertFields p (w :: rest)).step handle s.mem =
      some (if (insert t w.1 (copyString w.2)).1 then insertFields p rest else .ret kErrorConflict,
        s.mem.setTable p (insert t w.1 (copyString w.2)).2) :=
    step_call handle (handle_fieldInsert ht w.1 (copyString w.2))
  refine ⟨_, _, hstep, he _, published_of_keyTable hs (he _) rfl, ?_⟩
  rw [insert_fst]
  cases hvalue : get t w.1 with
  | some value =>
    refine .returned kErrorConflict ?_
    exact fun h => absurd h (by decide)
  | none =>
    refine .inserting p (done ++ [w]) rest (hvalues.trans (List.append_cons done w rest)) hkey ?_
    refine Covered.evolve_concat (he _) hr hhome hdone ?_
    refine covered_own hr hrunning _ _ hw (Mem.tableAt_setTable_self ht _) ?_
    rw [getElem?_insert_of_absent hvalue, if_pos rfl]

theorem advance_adding (hclean : ∀ field, Clean s r.doneBefore r.op.index p field) :
    ∃ prog mem, (addFields p (w :: rest)).step handle s.mem = some (prog, mem) ∧
      Advances home home s (s.moved n r mem prog) r prog := by
  obtain ⟨hhome, t, ht⟩ := hs.published _ p hkey
  have hw : w ∈ r.op.values := mem_of_eq_append hvalues
  have he := fun prog => evolves_insert hr hrunning prog hw ht hhome
  have hstep : (addFields p (w :: rest)).step handle s.mem =
      some (addFields p rest, s.mem.setTable p (insert t w.1 (copyString w.2)).2) :=
    step_call handle (handle_fieldInsert ht w.1 (copyString w.2))
  refine ⟨_, _, hstep, he _, published_of_keyTable hs (he _) rfl, ?_⟩
  refine .adding p (done ++ [w]) rest (hvalues.trans (List.append_cons done w rest)) hkey ?_ ?_
  · exact Covered.evolve_concat (he _) hr hhome hdone
      (covered_insert hr hrunning _ hw ht hhome (hclean _))
  · intro field
    exact (hclean field).evolve (he _) hr hhome ⟨t, ht⟩

theorem advance_updating :
    ∃ prog mem, (updateFields p (w :: rest)).step handle s.mem = some (prog, mem) ∧
      Advances home home s (s.moved n r mem prog) r prog := by
  obtain ⟨hhome, t, ht⟩ := hs.published _ p hkey
  have hw : w ∈ r.op.values := mem_of_eq_append hvalues
  have he := fun prog => evolves_update hr hrunning prog hw ht hhome
  refine ⟨_, _, step_call handle (handle_fieldUpdate ht w.1 (copyString w.2)), he _,
    published_of_keyTable hs (he _) rfl, ?_⟩
  rw [update_fst]
  cases hvalue : get t w.1 with
  | none =>
    refine .completing p done w rest hvalues hkey (Covered.evolve_all (he _) hr hhome hdone) ?_
    intro t' value ht' hvalue'
    obtain rfl := Option.some.inj ((Mem.tableAt_setTable_self ht _).symm.trans ht')
    rw [getElem?_update, if_pos rfl, show t[cStr w.1]? = none from hvalue] at hvalue'
    cases hvalue'
  | some old =>
    refine .updating p (done ++ [w]) rest (hvalues.trans (List.append_cons done w rest)) hkey ?_
    refine Covered.evolve_concat (he _) hr hhome hdone ?_
    refine covered_own hr hrunning _ _ hw (Mem.tableAt_setTable_self ht _) ?_
    rw [getElem?_update, if_pos rfl, show t[cStr w.1]? = some old from hvalue, Option.map_some]

theorem advance_completing (hclean : Clean s r.doneBefore r.op.index p (cStr w.1)) :
    ∃ prog mem, (Prog.call (.fieldInsert p w.1 (copyString w.2)) fun _ =>
        updateFields p rest).step handle s.mem = some (prog, mem) ∧
      Advances home home s (s.moved n r mem prog) r prog := by
  obtain ⟨hhome, t, ht⟩ := hs.published _ p hkey
  have hw : w ∈ r.op.values := mem_of_eq_append hvalues
  have he := fun prog => evolves_insert hr hrunning prog hw ht hhome
  have hstep : (Prog.call (.fieldInsert p w.1 (copyString w.2)) fun _ =>
        updateFields p rest).step handle s.mem =
      some (updateFields p rest, s.mem.setTable p (insert t w.1 (copyString w.2)).2) :=
    step_call handle (handle_fieldInsert ht w.1 (copyString w.2))
  refine ⟨_, _, hstep, he _, published_of_keyTable hs (he _) rfl, ?_⟩
  refine .updating p (done ++ [w]) rest (hvalues.trans (List.append_cons done w rest)) hkey ?_
  exact Covered.evolve_concat (he _) hr hhome hdone
    (covered_insert hr hrunning _ hw ht hhome hclean)

end Loops

/-- **Every operation gets on**: the call it makes next does not fail, and brings it
    forward, unless it publishes a record that is there. -/
theorem advance {prog : Prog Call Int} (h : Progress home s r.op r.doneBefore prog)
    (hunfinished : prog.finished = false)
    (habsent : ∀ index, publishing prog = some index → s.mem.keyTable[index]? = none) :
    ∃ home' prog' mem, prog.step handle s.mem = some (prog', mem) ∧
      Advances home home' s (s.moved n r mem prog') r prog' := by
  cases h with
  | looking =>
    cases hkey : s.mem.keyTable[r.op.index]? with
    | none =>
      obtain ⟨prog', hstep, hadvances⟩ := advance_absent hs hr hkey
      exact ⟨home, prog', s.mem, hstep, hadvances⟩
    | some p =>
      obtain ⟨prog', hstep, hadvances⟩ := advance_found hs hr p hkey
      exact ⟨home, prog', s.mem, hstep, hadvances⟩
  | creating => exact advance_creating hs hr
  | publishing p hhome hlive hclean =>
    obtain ⟨mem, hstep, hadvances⟩ :=
      advance_publishing hs hr hhome hlive hclean (habsent _ rfl)
    exact ⟨home, r.op.body p, mem, hstep, hadvances⟩
  | inserting p done rest hvalues hkey hdone =>
    cases rest with
    | nil => cases hunfinished
    | cons w rest => exact ⟨home, advance_inserting hs hr hrunning hvalues hkey hdone⟩
  | adding p done rest hvalues hkey hdone hclean =>
    cases rest with
    | nil => cases hunfinished
    | cons w rest => exact ⟨home, advance_adding hs hr hrunning hvalues hkey hdone hclean⟩
  | updating p done rest hvalues hkey hdone =>
    cases rest with
    | nil => cases hunfinished
    | cons w rest => exact ⟨home, advance_updating hs hr hrunning hvalues hkey hdone⟩
  | completing p done w rest hvalues hkey hdone hclean =>
    exact ⟨home, advance_completing hs hr hrunning hvalues hkey hdone hclean⟩
  | returned status hok => cases hunfinished

end Advance

/-! ### Runs -/

theorem Progress.written {home : Ptr → Str} {s : Clients} {r : Running Call Write Int}
    {prog : Prog Call Int} (h : Progress home s r.op r.doneBefore prog)
    (hresult : prog.result = some kOK) :
    ∃ p, s.mem.keyTable[r.op.index]? = some p ∧
      ∀ w ∈ r.op.values, Covered s r.doneBefore r.op.index p (cStr w.1) := by
  cases h with
  | looking =>
    obtain ⟨client, ⟨kind, table, key, values⟩, doneBefore, prog₀⟩ := r
    cases kind <;> cases hresult
  | creating => cases hresult
  | publishing p => cases hresult
  | inserting p done rest hvalues hkey hdone =>
    cases rest with
    | nil =>
      rw [hvalues, List.append_nil]
      exact ⟨p, hkey, hdone⟩
    | cons w rest => cases hresult
  | adding p done rest hvalues hkey hdone hclean =>
    cases rest with
    | nil =>
      rw [hvalues, List.append_nil]
      exact ⟨p, hkey, hdone⟩
    | cons w rest => cases hresult
  | updating p done rest hvalues hkey hdone =>
    cases rest with
    | nil =>
      rw [hvalues, List.append_nil]
      exact ⟨p, hkey, hdone⟩
    | cons w rest => cases hresult
  | completing p done w rest => cases hresult
  | returned status hok => exact hok (Option.some.inj hresult)

theorem Good.keepsWrites {home : Ptr → Str} {s : Clients} (hs : Good home s) : KeepsWrites s := by
  intro n r hr hresult w hw
  obtain ⟨p, hkey, hall⟩ := (hs.progress n r hr).written hresult
  obtain ⟨fieldPair, hfieldPair, rfl⟩ := List.mem_map.mp hw
  obtain ⟨t, value, ht, hvalue, hwriter⟩ := hall fieldPair hfieldPair
  exact ⟨t, value, Mem.recordAt_of_get hkey ht, hvalue, hwriter⟩

theorem good_start {home : Ptr → Str} {s : Clients} (hs : Good home s) (client : Nat) (op : Write)
    (hpast : (s.start Write.program client op).PastFinished) :
    Good home (s.start Write.program client op) := by
  have he : Evolves home home s (s.start Write.program client op) := by
    refine ⟨?_, fun _ _ h => h, fun _ _ _ => rfl, ?_⟩
    · rintro m index field value ⟨rm, hrm, hcarried⟩
      obtain ⟨hlt, -⟩ := List.getElem?_eq_some_iff.mp hrm
      refine ⟨rm, ?_, hcarried⟩
      rw [Pool.getElem?_start, if_neg hlt.ne, hrm]
    · intro p t ht
      exact ⟨t, ht, fun _ value hvalue => ⟨value, hvalue⟩, fun _ _ => Or.inl⟩
  refine ⟨hs.published, hpast, ?_⟩
  intro n r hr
  rw [Pool.getElem?_start] at hr
  by_cases hn : n = s.ops.length
  · rw [if_pos hn] at hr
    obtain rfl := Option.some.inj hr
    exact .looking
  · rw [if_neg hn] at hr
    exact (hs.progress n r hr).evolve hs he hr

theorem good_step {home : Ptr → Str} {s : Clients} (hs : Good home s) (e : Event Write)
    (he : PublishesAbsent s e) : ∃ home', Good home' (s.step e) := by
  have hpast : (s.step e).PastFinished := Pool.pastFinished_step handle Write.program hs.past e
  rcases Pool.step_cases handle Write.program s e with
    heq | ⟨client, op, -, -, heq⟩ | ⟨client, n, r, prog, mem, rfl, hcurrent, hr, hstep, heq⟩
  · rw [Clients.step, heq]
    exact ⟨home, hs⟩
  · rw [Clients.step, heq] at hpast ⊢
    exact ⟨home, good_start hs client op hpast⟩
  · have hunfinished : r.prog.finished = false := finished_of_step handle hstep
    have hrunning : ∀ (k : Nat) (rk : Running Call Write Int),
        s.ops[k]? = some rk → n ∉ rk.doneBefore :=
      fun k rk hrk => Pool.not_mem_doneBefore hs.past hrk hr hunfinished
    have habsent : ∀ index, publishing r.prog = some index → s.mem.keyTable[index]? = none := by
      intro index hindex
      apply he index
      rw [publishedNext, hcurrent, Option.bind_some, hr, Option.bind_some, hindex]
    obtain ⟨home', prog', mem', hstep', hadvances⟩ :=
      advance hs hr hrunning (hs.progress n r hr) hunfinished habsent
    obtain ⟨rfl, rfl⟩ := Prod.mk.inj (Option.some.inj (hstep'.symm.trans hstep))
    rw [Clients.step, heq] at hpast ⊢
    refine ⟨home', hadvances.published, hpast, ?_⟩
    intro k rk hrk
    rw [Pool.getElem?_set_running hr] at hrk
    by_cases hnk : n = k
    · rw [if_pos hnk] at hrk
      obtain rfl := Option.some.inj hrk
      exact hadvances.progress
    · rw [if_neg hnk] at hrk
      exact (hs.progress k rk hrk).evolve hs hadvances.evolves hrk

theorem good_init : Good (fun _ => []) Clients.init := by
  refine ⟨?_, Pool.pastFinished_nil _, fun n r hr => absurd hr (Option.some_ne_none r).symm⟩
  intro index p hp
  rw [Clients.init, Mem.empty, Std.ExtTreeMap.getElem?_empty] at hp
  cases hp

/-- **While every record is published once, no write is lost**, whichever clients
    insert and update, in whatever order their calls come. -/
theorem keepsWrites_run (events : List (Event Write))
    (h : AllSteps Clients.step PublishesAbsent Clients.init events) :
    Throughout Clients.step KeepsWrites Clients.init events := by
  have hgood : Throughout Clients.step (fun s => ∃ home, Good home s) Clients.init events :=
    throughout_of_allSteps (fun s e hs he => hs.elim fun home hs => good_step hs e he)
      ⟨_, good_init⟩ h
  exact hgood.imp fun s hs => hs.elim fun home hs => hs.keepsWrites

/-- An update that finds a record while its insert is still writing the fields. -/
def updateDuringInsert : List (Event Write) :=
  [.begin 1 ⟨.insert, str "t", str "1", [(str "a", str "x"), (str "b", str "y")]⟩,
    .call 1, .call 1, .call 1,
    .begin 2 ⟨.update, str "t", str "1", [(str "b", str "z")]⟩,
    .call 2, .call 1, .call 2, .call 1, .call 2]

theorem keepsWrites_run_updateDuringInsert :
    Throughout Clients.step KeepsWrites Clients.init updateDuringInsert :=
  keepsWrites_run updateDuringInsert (by decide)

/-- Two inserts of one record that both look before either publishes. -/
def publishedTwice : List (Event Write) :=
  [.begin 1 ⟨.insert, str "t", str "1", [(str "a", str "x")]⟩,
    .begin 2 ⟨.insert, str "t", str "1", [(str "b", str "y")]⟩,
    .call 1, .call 2, .call 1, .call 1, .call 1, .call 2, .call 2, .call 2]

/-- Both inserts have returned `kOK`, and the field of the second is nowhere. -/
theorem not_keepsWrites_publishedTwice :
    ¬∀ events, Throughout Clients.step KeepsWrites Clients.init events := by
  intro h
  let s := run Clients.step Clients.init publishedTwice
  have hlast : KeepsWrites s := (h publishedTwice).last
  have hsecond : (s.ops[1]?.map fun r => (r.prog.result, r.op.index, r.op.fields)) =
      some (some kOK, str "t1", [(str "b", str "y")]) := by decide
  obtain ⟨r, hr, hop⟩ := Option.map_eq_some_iff.mp hsecond
  obtain ⟨hresult, hindex, hfields⟩ : r.prog.result = some kOK ∧ r.op.index = str "t1" ∧
      r.op.fields = [(str "b", str "y")] := by
    simpa only [Prod.mk.injEq] using hop
  obtain ⟨t, value, ht, hvalue, -⟩ :=
    hlast 1 r hr hresult (str "b", str "y") (hfields ▸ List.mem_cons_self)
  have hgone : ((s.mem.recordAt (str "t1")).bind fun t => t[str "b"]?) = none := by decide
  rw [← hindex, ht, Option.bind_some, hvalue] at hgone
  cases hgone

end NvrecYcsb.HashtableClients
