/-
  NvrecYcsb/RedisRecords.lean
  ===========================
  **The Redis back end is a store of records**, before a server that keeps hashes.

  A server keeps hashes when its commands do to the fields of a key what they are for
  (`KeepsHashes`).  `Insert` and `Update` both write over what is there, so it takes a
  client that inserts absent records and updates present ones for the back end to follow
  the store of records; then every read over the connection is a read of the record that
  the calls so far have made (`session_of_records`).
-/
import NvrecYcsb.RedisOperations
import NvrecYcsb.BackendAgreement

namespace NvrecYcsb.RedisRecords

open CppRuntime StlHashtable Hiredis HiredisReader HiredisConnection RequestPairing RedisDb
open RedisOperations RecordReplay RecordStore Runs
open ReplyRoundTrip (Sendable encodeAll)
open RedisReplies (maxDepth)
open RecoveryDefs (KVPair)
open NvmDb (Op Call)
open BackendAgreement (Records recordsStep Discipline NulFreePairs Canonical)
open RecordRecovery (Fields keyName)

/-! ### Hashes -/

/-- The reply that holds the value of a field. -/
def valueReply : Option Str → RedisReply
  | some value => .string .string value
  | none => .nil

/-- The reply that holds names and values. -/
def pairsReply (pairs : List KVPair) : RedisReply :=
  .array (2 * pairs.length) (pairs.flatMap fun p => [.string .string p.1, .string .string p.2])

/-- The server keeps the fields of each key, and no names twice among those it lists. -/
structure KeepsHashes {S : Type} (serve : S → List Str → RedisReply × S)
    (view : S → Str → Fields) : Prop where
  hmset : ∀ s key values, view (serve s (wanted key values)).2 =
    Function.update (view s) key (overlay (carried values) (view s key))
  del : ∀ s key, view (serve s [str "DEL", key]).2 = Function.update (view s) key blank
  wait : ∀ s args, view (serve s (str "WAIT" :: args)).2 = view s
  hmget : ∀ s key names, (serve s (str "HMGET" :: key :: names)).1 =
    .array names.length (names.map fun name => valueReply (view s key name))
  view_hmget : ∀ s key names, view (serve s (str "HMGET" :: key :: names)).2 = view s
  hgetall : ∀ s key, ∃ pairs, (serve s [str "HGETALL", key]).1 = pairsReply pairs ∧
    (pairs.map Prod.fst).Nodup ∧ ∀ name, pairs.lookup name = view s key name
  view_hgetall : ∀ s key, view (serve s [str "HGETALL", key]).2 = view s

/-! ### What a client may read -/

/-- The pairs that a call reads are those of the record: of the fields it names, with an
    empty value where there is none, or all of them. -/
def Reads (records : Records) : Call → List KVPair → Prop
  | .change _, pairs => pairs = []
  | .read table key (some names), pairs =>
    pairs = names.map fun name => (name, ((records (table, key)).getD blank name).getD [])
  | .read table key none, pairs => (pairs.map Prod.fst).Nodup ∧
      ∀ name, pairs.lookup name = (records (table, key)).getD blank name

/-- Every call reads the records that the calls before it have made. -/
def ReadsAll (records : Records) : List Call → List (List KVPair) → Prop
  | [], answers => answers = []
  | call :: calls, answers => ∃ pairs rest, answers = pairs :: rest ∧ Reads records call pairs ∧
      ReadsAll (recordsStep records call) calls rest

/-! ### The server follows the records -/

section Records

variable {S : Type} {serve : S → List Str → RedisReply × S} {view : S → Str → Fields}
  {vsnprintf : Str → VaType → Int → Str} {slaves : Int} {table : Str} {records : Records} {s : S}

/-- The hashes of the server are the records of the table, and no NUL is in them. -/
structure Holds (view : S → Str → Fields) (table : Str) (records : Records) (s : S) : Prop where
  fields : ∀ key, view s key = (records (table, key)).getD blank
  nulFree : ∀ key name value, view s key name = some value → NulFree name ∧ NulFree value

theorem nulFree_carried {values : List KVPair} (h : NulFreePairs values) {name value : Str}
    (hvalue : carried values name = some value) : NulFree name ∧ NulFree value := by
  obtain ⟨p, hp, rfl⟩ := List.mem_map.mp (List.mem_of_getLast? hvalue)
  obtain ⟨hmem, hname⟩ := List.mem_filter.mp hp
  rw [← of_decide_eq_true hname]
  exact h p hmem

/-- The fields written over those of a key. -/
theorem holds_written {values : List KVPair} {key : Str} {fields : Fields} {s' : S}
    (hs : Holds view table records s) (hnul : NulFreePairs values)
    (hview : view s' = Function.update (view s) key (overlay (carried values) (view s key)))
    (hfields : overlay (carried values) ((records (table, key)).getD blank) = fields) :
    Holds view table (Function.update records (table, key) (some fields)) s' := by
  constructor
  · intro key'
    rw [hview]
    by_cases h : key' = key
    · subst h
      simp [hs.fields, hfields]
    · have hplace : (table, key') ≠ (table, key) := fun heq => h (congrArg Prod.snd heq)
      simp [h, hplace, hs.fields]
  · intro key' name value hvalue
    rw [hview] at hvalue
    by_cases h : key' = key
    · subst h
      rw [Function.update_self, overlay] at hvalue
      rcases Option.or_eq_some_iff.mp hvalue with hcarried | ⟨_, hold⟩
      · exact nulFree_carried hnul hcarried
      · exact hs.nulFree _ _ _ hold
    · rw [Function.update_of_ne h] at hvalue
      exact hs.nulFree _ _ _ hvalue

theorem holds_deleted {key : Str} {s' : S} (hs : Holds view table records s)
    (hview : view s' = Function.update (view s) key blank) :
    Holds view table (Function.update records (table, key) none) s' := by
  constructor
  · intro key'
    rw [hview]
    by_cases h : key' = key
    · subst h
      simp
    · have hplace : (table, key') ≠ (table, key) := fun heq => h (congrArg Prod.snd heq)
      simp [h, hplace, hs.fields]
  · intro key' name value hvalue
    rw [hview] at hvalue
    by_cases h : key' = key
    · subst h
      simp [blank] at hvalue
    · rw [Function.update_of_ne h] at hvalue
      exact hs.nulFree _ _ _ hvalue

/-- The hashes are what matters of the server. -/
theorem Holds.of_view {s' : S} (hs : Holds view table records s) (hview : view s' = view s) :
    Holds view table records s' :=
  ⟨hview ▸ hs.fields, hview ▸ hs.nulFree⟩

theorem view_wait (hserve : KeepsHashes serve view) (s : S) :
    view (stateAfter serve s (if slaves ≠ 0 then [waitArgv vsnprintf slaves] else [])) =
      view s := by
  by_cases h : slaves = 0
  · simp [h, stateAfter]
  · simp [h, stateAfter, waitArgv, hserve.wait]

/-- **A disciplined call does to the server what it does to the records.** -/
theorem holds_stateAfter (hserve : KeepsHashes serve view) {call : Call}
    (hcall : Discipline table records call) (hs : Holds view table records s) :
    Holds view table (recordsStep records call)
      (stateAfter serve s (callCommands vsnprintf slaves call)) := by
  cases call with
  | read table' key fields =>
    cases fields with
    | none => exact hs.of_view (hserve.view_hgetall s (cStr key))
    | some names => exact hs.of_view (hserve.view_hmget s key names)
  | change op =>
    cases op with
    | insert table' key values =>
      obtain ⟨rfl, _, hnul, _, habsent⟩ := hcall
      refine Holds.of_view ?_ (view_wait hserve _)
      refine holds_written hs hnul (hserve.hmset s key values) ?_
      rw [habsent, Option.getD_none, overlay_blank]
    | update table' key values =>
      obtain ⟨rfl, _, hnul, hpresent⟩ := hcall
      obtain ⟨fields, hfields⟩ := Option.ne_none_iff_exists'.mp hpresent
      refine Holds.of_view ?_ (view_wait hserve _)
      have hwritten := holds_written hs hnul (hserve.hmset s key values) rfl
      simpa [recordsStep, step, Op.command, Command.effect, hfields] using hwritten
    | delete table' key =>
      obtain ⟨rfl, _⟩ := hcall
      exact Holds.of_view (holds_deleted hs (hserve.del s key)) (view_wait hserve _)

/-! ### Reading -/

theorem readFields_values (fields : Fields)
    (hnul : ∀ name value, fields name = some value → NulFree value) (names : List Str) :
    readFields names (names.map fun name => valueReply (fields name)) =
      .returned (names.map fun name => (name, (fields name).getD [])) := by
  induction names with
  | nil => rfl
  | cons name names ih =>
    rw [List.map_cons, readFields, ih]
    cases hvalue : fields name with
    | none => simp [valueReply, strOf, hvalue]
    | some value =>
      simp [valueReply, strOf, hvalue, cStr_of_nulFree (hnul name value hvalue)]

theorem readPairs_pairs {pairs : List KVPair} (hnul : NulFreePairs pairs) :
    readPairs pairs.length
        (pairs.flatMap fun p => [.string .string p.1, .string .string p.2]) = .returned pairs := by
  induction pairs with
  | nil => rfl
  | cons p pairs ih =>
    obtain ⟨hname, hvalue⟩ := hnul p List.mem_cons_self
    have hrest := ih fun q hq => hnul q (List.mem_cons_of_mem p hq)
    rw [List.length_cons, List.flatMap_cons, List.cons_append, List.singleton_append, readPairs,
      hrest]
    simp [strOf, cStr_of_nulFree hname, cStr_of_nulFree hvalue]

/-- **A disciplined call reads the record.** -/
theorem reads_directReply (hserve : KeepsHashes serve view) {call : Call}
    (hcall : Discipline table records call) (hs : Holds view table records s) :
    ∃ pairs, directReply serve s call = .returned pairs ∧ Reads records call pairs := by
  cases call with
  | change op => exact ⟨[], rfl, rfl⟩
  | read table' key fields =>
    obtain ⟨rfl, ⟨n, rfl⟩, _⟩ := hcall
    cases fields with
    | some names =>
      refine ⟨_, ?_, rfl⟩
      rw [directReply, hserve.hmget, readReply, if_pos rfl,
        readFields_values _ fun name value hvalue => (hs.nulFree _ name value hvalue).2]
      simp [hs.fields]
    | none =>
      have hkey : cStr (keyName n) = keyName n := cStr_of_nulFree (BackendAgreement.nulFree_keyName n)
      obtain ⟨pairs, hreply, hnodup, hlookup⟩ := hserve.hgetall s (keyName n)
      have hnul : NulFreePairs pairs := by
        intro p hp
        have hvalue : pairs.lookup p.1 = some p.2 :=
          (RecordRecovery.lookup_eq_some_iff hnodup).mpr hp
        rw [hlookup] at hvalue
        exact hs.nulFree _ _ _ hvalue
      refine ⟨pairs, ?_, hnodup, fun name => by rw [hlookup, hs.fields]⟩
      rw [directReply, hkey, hreply, pairsReply, readReply, Nat.mul_div_cancel_left _ (by decide)]
      exact readPairs_pairs hnul

theorem directSession_of_records (hserve : KeepsHashes serve view) {calls : List Call}
    (hcalls : AllSteps recordsStep (Discipline table) records calls)
    (hs : Holds view table records s) :
    ∃ answers, directSession vsnprintf serve slaves s calls = .returned answers ∧
      ReadsAll records calls answers := by
  induction calls generalizing records s with
  | nil => exact ⟨[], rfl, rfl⟩
  | cons call calls ih =>
    obtain ⟨hcall, hcalls⟩ := hcalls
    obtain ⟨pairs, hpairs, hreads⟩ := reads_directReply hserve hcall hs
    obtain ⟨rest, hrest, hreadsAll⟩ := ih hcalls (holds_stateAfter hserve hcall hs)
    refine ⟨pairs :: rest, ?_, pairs, rest, rfl, hreads, hreadsAll⟩
    rw [directSession, hpairs, Outcome.returned_bind, hrest]
    rfl

/-- **The Redis back end over a new connection is a store of records**: when the server
    keeps hashes and has none yet, and the kernel works on, every call of a client that
    inserts absent records and updates present ones reads the records that the calls
    before it have made. -/
theorem session_of_records (strerror : Errno → Str) {s₀ : S} (hserve : KeepsHashes serve view)
    (hempty : ∀ key, view s₀ key = blank) {calls : List Call}
    (hcalls : AllSteps recordsStep (Discipline table) (fun _ => none) calls)
    (hplain : ∀ call ∈ calls, Plain vsnprintf slaves call)
    (hvs : ∀ v ∈ answersTo serve s₀ (calls.flatMap (callCommands vsnprintf slaves)),
      Sendable maxDepth v) {writes : List WriteResult} {reads : List ReadResult}
    (hwrites : ∀ r ∈ writes, ¬writeFails r) (hreads : ∀ r ∈ reads, ¬readFails r)
    (hsent : (commandText (calls.flatMap (callCommands vsnprintf slaves))).length ≤
      writes.countP progresses)
    (hreceived : (encodeAll (answersTo serve s₀
      (calls.flatMap (callCommands vsnprintf slaves)))).length ≤ reads.countP gives) :
    ∃ answers, dbSession vsnprintf (serverText serve s₀) strerror slaves
        { writes := writes, reads := reads } calls = .returned answers ∧
      ReadsAll (fun _ => none) calls answers := by
  have hs : Holds view table (fun _ => none) s₀ := by
    refine ⟨hempty, ?_⟩
    intro key name value hvalue
    rw [hempty] at hvalue
    cases hvalue
  rw [session_eq_direct strerror hplain hvs hwrites hreads hsent hreceived]
  exact directSession_of_records hserve hcalls hs

end Records

/-! ### The server of lists -/

def hashView (s : Hashes) (key : Str) : Fields := fun name => s.lookup (key, name)

theorem fieldReply_eq (s : Hashes) (key name : Str) :
    fieldReply s key name = valueReply (hashView s key name) := by
  rw [fieldReply, hashView]
  cases s.lookup (key, name) <;> rfl

theorem pairsOf_strings (values : List KVPair) : pairsOf (strings values) = values := by
  induction values with
  | nil => rfl
  | cons p values ih =>
    rw [strings, List.flatMap_cons, ← strings]
    exact congrArg (p :: ·) ih

theorem hashView_cons (s : Hashes) (place : Str × Str) (value : Str) (key name : Str) :
    hashView ((place, value) :: s) key name =
      if place = (key, name) then some value else hashView s key name := by
  rw [hashView, List.lookup_cons]
  by_cases h : place = (key, name)
  · simp [h]
  · rw [if_neg h, beq_false_of_ne (Ne.symm h)]
    rfl

theorem hashView_hmset (s : Hashes) (key : Str) (values : List KVPair) :
    hashView ((values.map fun p => ((key, p.1), p.2)).reverse ++ s) =
      Function.update (hashView s) key (overlay (carried values) (hashView s key)) := by
  induction values generalizing s with
  | nil =>
    rw [List.map_nil, List.reverse_nil, List.nil_append, carried_nil]
    exact (Function.update_eq_self key _).symm
  | cons p values ih =>
    rw [List.map_cons, List.reverse_cons, List.append_assoc, List.singleton_append, ih]
    funext key' name
    by_cases hkey : key' = key
    · subst hkey
      rw [Function.update_self, Function.update_self, overlay, overlay, carried_cons,
        hashView_cons, Option.or_assoc]
      by_cases hname : p.1 = name
      · simp [hname]
      · simp [hname]
    · rw [Function.update_of_ne hkey, Function.update_of_ne hkey, hashView_cons]
      simp [Ne.symm hkey]

theorem hashView_del (s : Hashes) (key : Str) :
    hashView (s.filter fun e => e.1.1 ≠ key) = Function.update (hashView s) key blank := by
  induction s with
  | nil =>
    funext key' name
    by_cases hkey : key' = key
    · subst hkey
      rw [Function.update_self]
      rfl
    · rw [Function.update_of_ne hkey]
      rfl
  | cons e s ih =>
    obtain ⟨place, value⟩ := e
    by_cases hplace : place.1 = key
    · rw [List.filter_cons_of_neg (by simpa using hplace), ih]
      funext key' name
      by_cases hkey : key' = key
      · subst hkey
        rw [Function.update_self, Function.update_self]
      · have hne : place ≠ (key', name) := by
          rintro rfl
          exact hkey hplace
        rw [Function.update_of_ne hkey, Function.update_of_ne hkey, hashView_cons, if_neg hne]
    · rw [List.filter_cons_of_pos (by simpa using hplace)]
      funext key' name
      rw [hashView_cons, ih]
      by_cases hkey : key' = key
      · subst hkey
        have hne : place ≠ (key', name) := by
          rintro rfl
          exact hplace rfl
        rw [Function.update_self, Function.update_self, if_neg hne]
      · rw [Function.update_of_ne hkey, Function.update_of_ne hkey, hashView_cons]

theorem mem_namesOf {s : Hashes} {key name : Str} :
    name ∈ namesOf s key ↔ hashView s key name ≠ none := by
  rw [hashView, ← Option.isSome_iff_ne_none, List.lookup_isSome_iff, namesOf, List.mem_dedup]
  simp only [List.mem_map, List.mem_filter, decide_eq_true_eq, beq_iff_eq]
  constructor
  · rintro ⟨e, ⟨hmem, rfl⟩, rfl⟩
    exact ⟨e, hmem, rfl⟩
  · rintro ⟨e, hmem, hplace⟩
    exact ⟨e, ⟨hmem, (congrArg Prod.fst hplace).symm⟩, (congrArg Prod.snd hplace).symm⟩

/-- The pairs of a key. -/
def pairsIn (s : Hashes) (key : Str) : List KVPair :=
  (namesOf s key).map fun name => (name, (hashView s key name).getD [])

theorem names_pairsIn (s : Hashes) (key : Str) :
    (pairsIn s key).map Prod.fst = namesOf s key := by
  rw [pairsIn, List.map_map]
  exact List.map_id _

theorem lookup_pairsIn (s : Hashes) (key name : Str) :
    (pairsIn s key).lookup name = hashView s key name := by
  have hnodup : ((pairsIn s key).map Prod.fst).Nodup := by
    rw [names_pairsIn]
    exact List.nodup_dedup _
  cases hvalue : hashView s key name with
  | none =>
    rw [← carried_of_nodup hnodup, carried_eq_none_iff, names_pairsIn, mem_namesOf, hvalue]
    simp
  | some value =>
    have hmem : name ∈ namesOf s key := mem_namesOf.mpr (by rw [hvalue]; simp)
    refine (RecordRecovery.lookup_eq_some_iff hnodup).mpr (List.mem_map.mpr ⟨name, hmem, ?_⟩)
    rw [hvalue, Option.getD_some]

theorem keepsHashes_hashServer : KeepsHashes hashServer hashView := by
  constructor
  · intro s key values
    rw [← hashView_hmset]
    simp [hashServer, wanted, pairsOf_strings]
  · intro s key
    rw [← hashView_del]
    rfl
  · intro s args
    cases args <;> rfl
  · intro s key names
    have hfields : fieldReply s key = fun name => valueReply (hashView s key name) :=
      funext (fieldReply_eq s key)
    rw [← hfields]
    rfl
  · intro s key names
    rfl
  · intro s key
    refine ⟨pairsIn s key, ?_, ?_, lookup_pairsIn s key⟩
    · have hreply : ∀ name ∈ namesOf s key, fieldReply s key name =
          .string .string ((hashView s key name).getD []) := by
        intro name hname
        obtain ⟨value, hvalue⟩ := Option.ne_none_iff_exists'.mp (mem_namesOf.mp hname)
        rw [fieldReply_eq, hvalue]
        rfl
      show RedisReply.array _ ((namesOf s key).flatMap _) = _
      rw [pairsReply, pairsIn, List.length_map, List.flatMap_map]
      refine congrArg _ (List.flatMap_congr ?_)
      intro name hname
      rw [hreply name hname]
    · rw [names_pairsIn]
      exact List.nodup_dedup _
  · intro s key
    rfl

theorem session_of_records_insertToDelete :
    ∃ answers, dbSession decimal (serverText hashServer []) (fun _ => []) 1
        { writes := .failed .eintr :: List.replicate 300 (.written 7)
          reads := .failed .eintr :: List.replicate 300 (.bytes 2) } insertToDelete =
      .returned answers ∧ ReadsAll (fun _ => none) insertToDelete answers := by
  have hone : Canonical (str "1") := ⟨1, by decide +kernel⟩
  have hcalls : AllSteps recordsStep (Discipline (str "t")) (fun _ => none) insertToDelete := by
    refine ⟨⟨rfl, hone, by decide, by decide, rfl⟩, ⟨rfl, hone, by decide, ?_⟩,
      ⟨rfl, hone, ?_⟩, ⟨rfl, hone⟩, ⟨rfl, hone, ?_⟩, trivial⟩
    · exact Option.some_ne_none _
    · rintro names ⟨⟩
      decide
    · rintro names ⟨⟩
  refine session_of_records _ keepsHashes_hashServer (fun _ => rfl) hcalls ?_ ?_ ?_ ?_ ?_ ?_
  · decide +kernel
  · decide +kernel
  · intro r hr
    rcases List.mem_cons.mp hr with rfl | hr
    · exact fun h => h rfl
    · rw [List.eq_of_mem_replicate hr]
      exact id
  · intro r hr
    rcases List.mem_cons.mp hr with rfl | hr
    · exact fun h => h rfl
    · rw [List.eq_of_mem_replicate hr]
      exact id
  · decide +kernel
  · decide +kernel

end NvrecYcsb.RedisRecords
