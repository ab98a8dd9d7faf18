/-
  NvrecYcsb/RedisDb.lean
  ======================
  **The Redis back end** (`db/redis_db.cc`, `redis/redis_client.h`).

  `Update` writes the command out as one string, its parts after spaces, having
  made sure that no field name and no value has a space in it.  `Command` hands
  that string to hiredis as a format, so that every `%` in it begins a directive.
  `Read` gives its key to a directive instead.

  * `updateCommand_eq`: the text of the command, when the checks of `Update` pass;
  * `sends_iff`: the command that is sent has the arguments it was given exactly when
    none of their bytes before the last is a `%`;
  * `readAll_sends`: `Read` sends its key, whatever it is.
-/
import NvrecYcsb.Hiredis
import NvrecYcsb.RecoveryDefs

namespace NvrecYcsb.RedisDb

open CppRuntime StlHashtable Hiredis
open RecoveryDefs (KVPair)

variable (vsnprintf : Str → VaType → Int → Str)

/-! ### `RedisClient` -/

/-- The `redisAppendCommand` calls of `Command`: the command, and with slaves a
    `WAIT`.  What they return is not looked at. -/
def command (slaves : Int) (context : RedisContext) (cmd : Str) : Outcome RedisContext := do
  let (_, context) ← redisvAppendCommand vsnprintf context cmd []
  if slaves ≠ 0 then
    let (_, context) ← redisvAppendCommand vsnprintf context (str "WAIT %d %d")
      [.value .int slaves, .value .int 0]
    .returned context
  else .returned context

/-! ### `RedisDB` -/

/-- The loop of `Update`, with its assertions. -/
def appendPairs : List KVPair → Str → Outcome Str
  | [], cmd => .returned cmd
  | p :: values, cmd =>
    if space ∈ p.1 then .aborted
    else if space ∈ p.2 then .aborted
    else appendPairs values (cmd ++ str " " ++ p.1 ++ str " " ++ p.2)

/-- `len` of `Update`. -/
def updateLength (key : Str) (values : List KVPair) : Nat :=
  (values.map fun p => p.1.length + p.2.length + 2).foldl (· + ·)
    ((str "HMSET").length + key.length + 1)

/-- The command text of `Update`. -/
def updateCommand (key : Str) (values : List KVPair) : Outcome Str := do
  let cmd ← appendPairs values (str "HMSET" ++ str " " ++ key)
  if cmd.length = updateLength key values then .returned cmd else .aborted

/-- The arguments that the command of `Update` is turned into. -/
def updateArgv (key : Str) (values : List KVPair) : Outcome FormatEnd := do
  let cmd ← updateCommand key values
  .returned (redisvFormatCommand vsnprintf cmd [])

/-- The names and values of the pairs, in the order in which they are sent. -/
def strings (values : List KVPair) : List Str := values.flatMap fun p => [p.1, p.2]

/-- The arguments that `Update` is to send. -/
def wanted (key : Str) (values : List KVPair) : List Str := str "HMSET" :: key :: strings values

/-- The arguments that the command of `Read` is turned into when it is given no fields. -/
def readAllArgv (key : Str) : FormatEnd :=
  redisvFormatCommand vsnprintf (str "HGETALL %s") [.string key]

/-! ### The text of a command -/

/-- Words, each after a space. -/
def spaced (words : List Str) : Str := words.flatMap fun word => space :: word

variable {key : Str} {values : List KVPair}

theorem appendPairs_eq (h : ∀ p ∈ values, space ∉ p.1 ∧ space ∉ p.2) (cmd : Str) :
    appendPairs values cmd = .returned (cmd ++ spaced (strings values)) := by
  induction values generalizing cmd with
  | nil => simp [appendPairs, spaced, strings]
  | cons p values ih =>
    obtain ⟨hname, hvalue⟩ := h p List.mem_cons_self
    have hrest : ∀ q ∈ values, space ∉ q.1 ∧ space ∉ q.2 :=
      fun q hq => h q (List.mem_cons_of_mem p hq)
    have hspace : str " " = [space] := by decide +kernel
    rw [appendPairs, if_neg hname, if_neg hvalue, ih hrest, hspace]
    simp [spaced, strings]

theorem length_spaced_strings (values : List KVPair) (n : Nat) :
    (values.map fun p => p.1.length + p.2.length + 2).foldl (· + ·) n =
      n + (spaced (strings values)).length := by
  induction values generalizing n with
  | nil => rfl
  | cons p values ih =>
    rw [List.map_cons, List.foldl_cons, ih]
    simp only [spaced, strings, List.flatMap_cons, List.cons_append, List.nil_append,
      List.length_cons, List.length_append]
    omega

/-- **The text of the command**: its words after spaces, as long as it was reckoned. -/
theorem updateCommand_eq (h : ∀ p ∈ values, space ∉ p.1 ∧ space ∉ p.2) :
    updateCommand key values = .returned (str "HMSET" ++ spaced (key :: strings values)) := by
  have hspace : str " " = [space] := by decide +kernel
  have hcmd : str "HMSET" ++ str " " ++ key ++ spaced (strings values) =
      str "HMSET" ++ spaced (key :: strings values) := by
    rw [hspace]
    simp [spaced]
  have hlen : (str "HMSET" ++ spaced (key :: strings values)).length = updateLength key values := by
    rw [← hcmd, updateLength, length_spaced_strings, hspace]
    simp only [List.length_append, List.length_singleton]
    omega
  rw [updateCommand, appendPairs_eq h, Outcome.returned_bind, hcmd, if_pos hlen]

/-! ### Where its directives are -/

theorem mem_spaced {c : Byte} (hc : c ≠ space) (words : List Str) :
    c ∈ spaced words ↔ c ∈ words.flatten := by
  simp [spaced, hc]

theorem inkOf_spaced {words : List Str} (h : ∀ word ∈ words, space ∉ word) :
    inkOf (spaced words) = words.flatten.length := by
  induction words with
  | nil => rfl
  | cons word words ih =>
    have hword : word.countP (· != space) = word.length := by
      apply List.countP_eq_length.mpr
      intro c hc
      have hne : c ≠ space := fun heq => h word List.mem_cons_self (heq ▸ hc)
      simpa using hne
    have hrest : (spaced words).countP (· != space) = words.flatten.length :=
      ih fun w hw => h w (List.mem_cons_of_mem word hw)
    have hcons : spaced (word :: words) = space :: word ++ spaced words := rfl
    simp [inkOf, hcons, hword, hrest]

/-- Words that are not empty end where their text does. -/
theorem percent_mem_dropLast {words : List Str} (hne : ∀ word ∈ words, word ≠ []) (name : Str)
    (hname : percent ∉ name) (h : words ≠ []) :
    percent ∈ (name ++ spaced words).dropLast ↔ percent ∈ words.flatten.dropLast := by
  obtain ⟨init, last, rfl⟩ := (List.eq_nil_or_concat' words).resolve_left h
  have hlast : last ≠ [] := hne last (by simp)
  have hspaced : name ++ spaced (init ++ [last]) = (name ++ spaced init ++ [space]) ++ last := by
    simp [spaced]
  have hflatten : (init ++ [last]).flatten = init.flatten ++ last := by simp
  have hspace : percent ≠ space := by decide
  rw [hspaced, hflatten, List.dropLast_append_of_ne_nil hlast, List.dropLast_append_of_ne_nil hlast]
  simp [hname, mem_spaced hspace, hspace]

/-! ### What is sent -/

/-- The text of a command that is made of words. -/
theorem formatted_words {words : List Str} (h : ∀ word ∈ words, word ≠ [] ∧ space ∉ word)
    (hplain : percent ∉ (str "HMSET" ++ spaced words).dropLast) :
    formatLoop vsnprintf (str "HMSET" ++ spaced words) {} = .formatted (str "HMSET" :: words) := by
  have hhmset : (str "HMSET").foldl FormatState.putChar {} =
      { curarg := str "HMSET", touched := true } := by rfl
  rw [formatLoop_plain hplain, List.foldl_append, hhmset, spaced, push_foldl_words h _ rfl]
  rfl

theorem cStr_command {words : List Str} (h : ∀ word ∈ words, NulFree word) :
    cStr (str "HMSET" ++ spaced words) = str "HMSET" ++ spaced words := by
  apply cStr_of_nulFree
  have hhmset : (0 : Byte) ∉ str "HMSET" := by decide +kernel
  have hzero : (0 : Byte) ≠ space := by decide
  simp only [NulFree, List.mem_append, mem_spaced hzero, List.mem_flatten, not_or, not_exists]
  exact ⟨hhmset, fun word hword => h word hword.1 hword.2⟩

/-- **The bytes that are sent.**  `Update` sends the strings it was given exactly when
    none of their bytes before the last one is a `%`. -/
theorem sends_iff (hkey : space ∉ key) (hvalues : ∀ p ∈ values, space ∉ p.1 ∧ space ∉ p.2)
    (h : ∀ s ∈ key :: strings values, s ≠ [] ∧ NulFree s) :
    updateArgv vsnprintf key values = .returned (.formatted (wanted key values)) ↔
      percent ∉ (key :: strings values).flatten.dropLast := by
  have hspace : ∀ s ∈ key :: strings values, space ∉ s := by
    intro s hs
    rcases List.mem_cons.mp hs with rfl | hs
    · exact hkey
    · obtain ⟨p, hp, hs⟩ := List.mem_flatMap.mp hs
      rcases List.mem_pair.mp hs with rfl | rfl
      exacts [(hvalues p hp).1, (hvalues p hp).2]
  have hargv : updateArgv vsnprintf key values = .returned
      (formatLoop vsnprintf (str "HMSET" ++ spaced (key :: strings values)) {}) := by
    rw [updateArgv, updateCommand_eq hvalues, Outcome.returned_bind, redisvFormatCommand,
      cStr_command fun s hs => (h s hs).2]
  have hpercent := percent_mem_dropLast (fun s hs => (h s hs).1) (str "HMSET")
    (by decide +kernel) (List.cons_ne_nil key (strings values))
  rw [hargv, Outcome.returned.injEq]
  constructor
  · intro hformatted hmem
    -- a directive would have lost a byte of what is sent
    have hloses := formatLoop_loses rfl hformatted
    have hink : inkOf (str "HMSET" ++ spaced (key :: strings values)) =
        (wanted key values).flatten.length := by
      have hhmset : inkOf (str "HMSET") = (str "HMSET").length := by decide +kernel
      rw [inkOf_append, hhmset, inkOf_spaced hspace]
      simp [wanted]
    rw [if_pos (hpercent.mpr hmem), hink] at hloses
    exact absurd hloses (by simp [FormatState.bytes])
  · intro hmem
    exact formatted_words vsnprintf (fun s hs => ⟨(h s hs).1, hspace s hs⟩) (mt hpercent.mp hmem)

/-- A value may end in a `%`. -/
theorem sends_iff_lastByte :
    updateArgv (fun _ _ _ => []) (str "user1") [(str "field0", str "ab%")] =
        .returned (.formatted (wanted (str "user1") [(str "field0", str "ab%")])) ↔
      percent ∉ (str "user1" :: strings [(str "field0", str "ab%")]).flatten.dropLast :=
  sends_iff (fun _ _ _ => []) (by decide +kernel) (by decide +kernel) (by decide +kernel)

/-- Of a value of two `%`, one is sent. -/
theorem not_sends_percents :
    ¬∀ (key : Str) (values : List KVPair), space ∉ key →
      (∀ p ∈ values, space ∉ p.1 ∧ space ∉ p.2) →
      (∀ s ∈ key :: strings values, s ≠ [] ∧ NulFree s) →
      updateArgv (fun _ _ _ => []) key values = .returned (.formatted (wanted key values)) := by
  intro h
  have hsends := h (str "user1") [(str "field0", str "%%")] (by decide +kernel) (by decide +kernel)
    (by decide +kernel)
  have hsent : updateArgv (fun _ _ _ => []) (str "user1") [(str "field0", str "%%")] =
      .returned (.formatted [str "HMSET", str "user1", str "field0", str "%"]) := by
    decide +kernel
  rw [hsent] at hsends
  exact absurd hsends (by decide +kernel)

/-- **`Read` sends its key**, up to a NUL, whatever its bytes are. -/
theorem readAll_sends (key : Str) :
    readAllArgv vsnprintf key = .formatted [str "HGETALL", cStr key] := by
  have hformat : cStr (str "HGETALL %s") = str "HGETALL " ++ [percent, 115] := by decide +kernel
  have hbefore : (str "HGETALL ").foldl FormatState.putChar { ap := [.string key] } =
      { argv := [str "HGETALL"], ap := [.string key] } := by rfl
  have hpercent : percent ∉ str "HGETALL " := by decide +kernel
  rw [readAllArgv, redisvFormatCommand, hformat, formatLoop_append hpercent, hbefore]
  -- the directive takes the key, which nothing reads as a format
  apply (formatLoop_directive rfl).trans
  exact formatLoop_nil _

/-- The arguments of the `WAIT` that follows with slaves. -/
theorem wait_sends (slaves timeout : Int) :
    redisvFormatCommand vsnprintf (str "WAIT %d %d") [.value .int slaves, .value .int timeout] =
      .formatted
        [str "WAIT", vsnprintf (str "%d") .int slaves, vsnprintf (str "%d") .int timeout] := by
  have hformat : cStr (str "WAIT %d %d") =
      str "WAIT " ++ [percent, 100, space, percent, 100] := by decide +kernel
  have hbefore : (str "WAIT ").foldl FormatState.putChar
      { ap := [.value .int slaves, .value .int timeout] } =
      { argv := [str "WAIT"], ap := [.value .int slaves, .value .int timeout] } := by rfl
  have hpercent : percent ∉ str "WAIT " := by decide +kernel
  rw [redisvFormatCommand, hformat, formatLoop_append hpercent, hbefore]
  apply (formatLoop_directive rfl).trans
  have hspace : percent ∉ [space] := by decide
  apply (formatLoop_append hspace [percent, 100] _).trans
  apply (formatLoop_directive rfl).trans
  exact formatLoop_nil _

end NvrecYcsb.RedisDb
