/-
  NvrecYcsb/RedisOperations.lean
  ==============================
  **The operations of the Redis back end** over a connection (`db/redis_db.{h,cc}`,
  `redis/redis_client.h`).

  `Update`, `Insert` and `Delete` hand their text to `Command`, which asks for as many
  replies as it gave commands and looks at none of them.  `Read` looks at its reply.

  When no call of the kernel fails and enough of them make progress, the operations over
  a connection read what they read when the server is asked directly: the texts, the
  pieces they come in and the buffers cannot be seen (`session_eq_direct`).
-/
import NvrecYcsb.RequestPairing
import NvrecYcsb.RedisDb
import NvrecYcsb.NvmDbRefinement

namespace NvrecYcsb.RedisOperations

open CppRuntime StlHashtable Hiredis HiredisReader HiredisConnection RequestPairing RedisDb
open ReplyRoundTrip (Sendable encodeAll)
open RedisReplies (maxDepth)
open RecoveryDefs (KVPair)
open NvmDb (Op Call kOK)

variable (vsnprintf : Str → VaType → Int → Str)

/-! ### `RedisClient` -/

section Client

variable (server : Str → Str) (strerror : Errno → Str) (slaves : Int)

/-- `Command`.  When a call for a reply fails, `HandleError` is given a reply that was
    not set, or was freed. -/
def clientCommand (c : Connection) (cmd : Str) : Outcome Connection := do
  let context ← command vsnprintf slaves c.toRedisContext cmd
  let (status, _, c) ← redisGetReply server strerror { c with toRedisContext := context }
  if status = redisErr then .undefined
  else if slaves ≠ 0 then do
    let (status, _, c) ← redisGetReply server strerror c
    if status = redisErr then .undefined else .returned c
  else .returned c

/-! ### `RedisDB` -/

/-- `Update`, and `Insert`, which calls it. -/
def dbUpdate (c : Connection) (key : Str) (values : List KVPair) : Outcome Connection := do
  let cmd ← updateCommand key values
  clientCommand vsnprintf server strerror slaves c cmd

/-- `Delete`. -/
def dbDelete (c : Connection) (key : Str) : Outcome Connection :=
  clientCommand vsnprintf server strerror slaves c (str "DEL " ++ key)

/-- `reply->element[i]->str`: it is `NULL` but for a string, a status or an error. -/
def strOf : RedisReply → Outcome (Option Str)
  | .null => .undefined
  | .string _ s => .returned (some (cStr s))
  | _ => .returned none

/-- The loop of `Read` over the fields it was given. -/
def readFields : List Str → List RedisReply → Outcome (List KVPair)
  | [], _ => .returned []
  | _ :: _, [] => .undefined
  | f :: fields, v :: element => do
    let value ← strOf v
    let pairs ← readFields fields element
    .returned ((f, value.getD []) :: pairs)

/-- The loop of `Read` over names and values; a string is not made of `NULL`. -/
def readPairs : Nat → List RedisReply → Outcome (List KVPair)
  | 0, _ => .returned []
  | n + 1, name :: value :: element => do
    let name ← strOf name
    let value ← strOf value
    match name, value with
    | some name, some value => do
      let pairs ← readPairs n element
      .returned ((name, value) :: pairs)
    | _, _ => .undefined
  | _ + 1, _ => .undefined

/-- What `Read` makes of its reply. -/
def readReply (fields : Option (List Str)) : RedisReply → Outcome (List KVPair)
  | .null => .returned []
  | .array elements element =>
    match fields with
    | some fields => if fields.length = elements then readFields fields element else .aborted
    | none => readPairs (elements / 2) element
  | _ => .aborted

/-- The command of `Read`, and its reply. -/
def readCommand (c : Connection) (key : Str) (fields : Option (List Str)) :
    Outcome (RedisReply × Connection) :=
  match fields with
  | some fields => redisCommandArgv server strerror c (str "HMGET" :: key :: fields)
  | none => redisCommand server strerror vsnprintf c (str "HGETALL %s") [.string key]

/-- `Read`. -/
def dbRead (c : Connection) (key : Str) (fields : Option (List Str)) (result : List KVPair) :
    Outcome (Int × List KVPair × Connection) := do
  let (reply, c) ← readCommand vsnprintf server strerror c key fields
  let pairs ← readReply fields reply
  .returned (kOK, result ++ pairs, c)

/-- One call of a client, with the pairs that it reads. -/
def dbCall (c : Connection) : Call → Outcome (List KVPair × Connection)
  | .change (.insert _ key values) => do
    .returned ([], ← dbUpdate vsnprintf server strerror slaves c key values)
  | .change (.update _ key values) => do
    .returned ([], ← dbUpdate vsnprintf server strerror slaves c key values)
  | .change (.delete _ key) => do
    .returned ([], ← dbDelete vsnprintf server strerror slaves c key)
  | .read _ key fields => do
    let (_, pairs, c) ← dbRead vsnprintf server strerror c key fields []
    .returned (pairs, c)

/-- Calls one after another, with what they read. -/
def dbSession (c : Connection) : List Call → Outcome (List (List KVPair))
  | [] => .returned []
  | call :: calls => do
    let (pairs, c) ← dbCall vsnprintf server strerror slaves c call
    let rest ← dbSession c calls
    .returned (pairs :: rest)

end Client

/-! ### The server asked directly -/

section Direct

variable {S : Type} (serve : S → List Str → RedisReply × S) (slaves : Int)

/-- The arguments of `WAIT %d %d`. -/
def waitArgv : List Str :=
  [str "WAIT", vsnprintf (str "%d") .int slaves, vsnprintf (str "%d") .int 0]

/-- The arguments of the commands of a call. -/
def callCommands : Call → List (List Str)
  | .change (.insert _ key values) =>
    wanted key values :: if slaves ≠ 0 then [waitArgv vsnprintf slaves] else []
  | .change (.update _ key values) =>
    wanted key values :: if slaves ≠ 0 then [waitArgv vsnprintf slaves] else []
  | .change (.delete _ key) =>
    [str "DEL", key] :: if slaves ≠ 0 then [waitArgv vsnprintf slaves] else []
  | .read _ key (some fields) => [str "HMGET" :: key :: fields]
  | .read _ key none => [[str "HGETALL", cStr key]]

/-- The server after commands. -/
def stateAfter (s : S) (cmds : List (List Str)) : S :=
  cmds.foldl (fun s argv => (serve s argv).2) s

/-- What a call reads, when the server is asked directly. -/
def directReply (s : S) : Call → Outcome (List KVPair)
  | .change _ => .returned []
  | .read _ key (some fields) =>
    readReply (some fields) (serve s (str "HMGET" :: key :: fields)).1
  | .read _ key none => readReply none (serve s [str "HGETALL", cStr key]).1

def directSession (s : S) : List Call → Outcome (List (List KVPair))
  | [] => .returned []
  | call :: calls => do
    let pairs ← directReply serve s call
    let rest ← directSession (stateAfter serve s (callCommands vsnprintf slaves call)) calls
    .returned (pairs :: rest)

end Direct

/-- The strings of a command that is given as a text come out of it as they are: they are
    not empty and hold no space and no NUL, and no byte of them before the last is `%`. -/
def Verbatim (words : List Str) : Prop :=
  (∀ word ∈ words, word ≠ [] ∧ NulFree word ∧ space ∉ word) ∧ percent ∉ words.flatten.dropLast

instance : DecidablePred Verbatim := fun words =>
  inferInstanceAs (Decidable ((∀ word ∈ words, word ≠ [] ∧ NulFree word ∧ space ∉ word) ∧
    percent ∉ words.flatten.dropLast))

/-- The client's side of a call: its commands are of sizes that can be sent, and a change
    has strings that come through. -/
def Plain (slaves : Int) (call : Call) : Prop :=
  (∀ argv ∈ callCommands vsnprintf slaves call, CommandOk argv) ∧
    match call with
    | .change (.insert _ key values) => Verbatim (key :: strings values)
    | .change (.update _ key values) => Verbatim (key :: strings values)
    | .change (.delete _ key) => Verbatim [key]
    | .read _ _ _ => True

instance (slaves : Int) : DecidablePred (Plain vsnprintf slaves)
  | .change (.insert _ key values) =>
    inferInstanceAs (Decidable (_ ∧ Verbatim (key :: strings values)))
  | .change (.update _ key values) =>
    inferInstanceAs (Decidable (_ ∧ Verbatim (key :: strings values)))
  | .change (.delete _ key) => inferInstanceAs (Decidable (_ ∧ Verbatim [key]))
  | .read _ _ _ => inferInstanceAs (Decidable (_ ∧ True))

/-! ### One call for a reply -/

section Steps

variable {vsnprintf}
variable {S : Type} {serve : S → List Str → RedisReply × S} {s₀ : S} {c : Connection}
  {cmds : List (List Str)}

/-- The kernel's calls that are to come: none fails, and enough of them make progress
    for the commands `all` and their replies. -/
structure Enough (serve : S → List Str → RedisReply × S) (s₀ : S) (all : List (List Str))
    (c : Connection) : Prop where
  sendable : ∀ v ∈ answersTo serve s₀ all, Sendable maxDepth v
  writes : ∀ r ∈ c.writes, ¬writeFails r
  reads : ∀ r ∈ c.reads, ¬readFails r
  sent : (commandText all).length ≤ c.writes.countP progresses + c.sent.length
  received : (encodeAll (answersTo serve s₀ all)).length ≤
    c.reads.countP gives + c.received.length

theorem Enough.later {all : List (List Str)} {c' : Connection} (h : Enough serve s₀ all c)
    (hlater : Later c c') : Enough serve s₀ all c' :=
  ⟨h.sendable, fun r hr => h.writes r (hlater.writes r hr),
    fun r hr => h.reads r (hlater.reads r hr), h.sent.trans hlater.sent, h.received.trans hlater.received⟩

theorem answersTo_append (s : S) (cmds cmds' : List (List Str)) :
    answersTo serve s (cmds ++ cmds') =
      answersTo serve s cmds ++ answersTo serve (stateAfter serve s cmds) cmds' := by
  induction cmds generalizing s with
  | nil => rfl
  | cons argv cmds ih =>
    rw [List.cons_append, answersTo, ih]
    rfl

theorem stateAfter_append (s : S) (cmds cmds' : List (List Str)) :
    stateAfter serve s (cmds ++ cmds') = stateAfter serve (stateAfter serve s cmds) cmds' :=
  List.foldl_append

/-- More commands are given. -/
theorem append_commands {taken : Nat} (h : Paired serve s₀ c cmds taken) {more : List (List Str)}
    (hmore : ∀ argv ∈ more, CommandOk argv) :
    Paired serve s₀ { c with obuf := c.obuf ++ commandText more } (cmds ++ more) taken := by
  induction more generalizing c cmds with
  | nil => simpa [commandText] using h
  | cons argv more ih =>
    have hone := h.append (hmore argv List.mem_cons_self)
    have hall := ih hone fun argv' hmem => hmore argv' (List.mem_cons_of_mem argv hmem)
    simpa [commandText] using hall

theorem commandText_length_le {all : List (List Str)} (h : cmds <+: all) :
    (commandText cmds).length ≤ (commandText all).length := by
  obtain ⟨more, rfl⟩ := h
  simp [commandText]

/-- A call for a reply gives the next one. -/
theorem getReply_enough (strerror : Errno → Str) {taken : Nat} {all : List (List Str)}
    (h : Paired serve s₀ c cmds taken) (htaken : taken < cmds.length)
    (henough : Enough serve s₀ all c) (hall : cmds <+: all) :
    ∃ v c', redisGetReply (serverText serve s₀) strerror c = .returned (redisOk, v, c') ∧
      (answersTo serve s₀ cmds)[taken]? = some v ∧ Paired serve s₀ c' cmds (taken + 1) ∧
      Enough serve s₀ all c' := by
  have hanswers : answersTo serve s₀ cmds <+: answersTo serve s₀ all := prefix_answersTo s₀ hall
  have hvs : ∀ v ∈ answersTo serve s₀ cmds, Sendable maxDepth v := by
    intro v hv
    exact henough.sendable v (hanswers.subset hv)
  rcases redisGetReply_paired hvs h htaken with ⟨_, hwaits⟩ | ⟨c', _, _, hfails⟩ |
    ⟨v, c', hget, hv, hpaired, hlater⟩
  · exfalso
    have hsent := henough.sent
    have hreceived := henough.received
    have htext := congrArg List.length h.text
    have hcommands := commandText_length_le hall
    have hreplies := (prefix_encodeAll hanswers).length_le
    rw [List.length_append] at htext
    rw [missing] at hwaits
    omega
  · rcases hfails with ⟨r, hr, hfails⟩ | ⟨r, hr, hfails⟩
    · exact absurd hfails (henough.writes r hr)
    · exact absurd hfails (henough.reads r hr)
  · exact ⟨v, c', hget, hv, hpaired, henough.later hlater⟩

/-! ### The operations -/

/-- The commands that `Command` appends. -/
theorem command_sends {slaves : Int} {context : RedisContext} {cmd : Str} {argv : List Str}
    (h : redisvFormatCommand vsnprintf cmd [] = .formatted argv) :
    command vsnprintf slaves context cmd = .returned { context with
      obuf := context.obuf ++
        commandText (argv :: if slaves ≠ 0 then [waitArgv vsnprintf slaves] else []) } := by
  rw [command, redisvAppendCommand, h]
  by_cases hslaves : slaves = 0
  · simp [hslaves, commandText]
  · simp [hslaves, redisvAppendCommand, wait_sends, commandText, waitArgv]

/-- **`Command` takes the replies of the commands that it gave.** -/
theorem clientCommand_paired (strerror : Errno → Str) {slaves : Int} {cmd : Str}
    {argv : List Str} {given all : List (List Str)}
    (hgiven : given = argv :: if slaves ≠ 0 then [waitArgv vsnprintf slaves] else [])
    (hformat : redisvFormatCommand vsnprintf cmd [] = .formatted argv)
    (h : Paired serve s₀ c cmds cmds.length) (henough : Enough serve s₀ all c)
    (hall : cmds ++ given <+: all) (hok : ∀ argv ∈ given, CommandOk argv) :
    ∃ c', clientCommand vsnprintf (serverText serve s₀) strerror slaves c cmd = .returned c' ∧
      Paired serve s₀ c' (cmds ++ given) (cmds ++ given).length ∧ Enough serve s₀ all c' := by
  have hne : redisOk ≠ redisErr := by decide
  have happended := append_commands h hok
  have henough' : Enough serve s₀ all { c with obuf := c.obuf ++ commandText given } :=
    ⟨henough.sendable, henough.writes, henough.reads, henough.sent, henough.received⟩
  rw [clientCommand, command_sends hformat, ← hgiven, Outcome.returned_bind]
  obtain ⟨v, c', hget, _, hpaired, henough'⟩ := getReply_enough strerror happended
    (by simp [hgiven]) henough' hall
  simp only [hget, Outcome.returned_bind, if_neg hne]
  by_cases hslaves : slaves = 0
  · refine ⟨c', by simp [hslaves], ?_, henough'⟩
    simpa [hgiven, hslaves] using hpaired
  · obtain ⟨w, c'', hget', _, hpaired', henough''⟩ := getReply_enough strerror hpaired
      (by simp [hgiven, hslaves]) henough' hall
    refine ⟨c'', by simp [hslaves, hget', hne], ?_, henough''⟩
    simpa [hgiven, hslaves] using hpaired'

/-- The text of `Update` has the arguments that it is to send. -/
theorem updateCommand_formatted (vsnprintf : Str → VaType → Int → Str) {key : Str} {values : List KVPair}
    (h : Verbatim (key :: strings values)) :
    ∃ cmd, updateCommand key values = .returned cmd ∧
      redisvFormatCommand vsnprintf cmd [] = .formatted (wanted key values) := by
  obtain ⟨hwords, hpercent⟩ := h
  have hvalues : ∀ p ∈ values, space ∉ p.1 ∧ space ∉ p.2 := by
    intro p hp
    have hname : p.1 ∈ strings values := List.mem_flatMap.mpr ⟨p, hp, by simp⟩
    have hvalue : p.2 ∈ strings values := List.mem_flatMap.mpr ⟨p, hp, by simp⟩
    exact ⟨(hwords _ (List.mem_cons_of_mem key hname)).2.2,
      (hwords _ (List.mem_cons_of_mem key hvalue)).2.2⟩
  have hargv := (sends_iff vsnprintf (hwords key List.mem_cons_self).2.2 hvalues
    fun s hs => ⟨(hwords s hs).1, (hwords s hs).2.1⟩).mpr hpercent
  obtain ⟨cmd, hcmd, hformatted⟩ := Outcome.bind_eq_returned.mp hargv
  exact ⟨cmd, hcmd, Outcome.returned.inj hformatted⟩

/-- The text of `Delete` has its key as an argument. -/
theorem delCommand_formatted (vsnprintf : Str → VaType → Int → Str) {key : Str}
    (h : Verbatim [key]) :
    redisvFormatCommand vsnprintf (str "DEL " ++ key) [] = .formatted [str "DEL", key] := by
  obtain ⟨hwords, hpercent⟩ := h
  obtain ⟨hne, hnul, hspace⟩ := hwords key List.mem_cons_self
  have hdel : str "DEL " = str "DEL" ++ [space] := by decide +kernel
  have hfold : (str "DEL").foldl FormatState.putChar {} =
      { curarg := str "DEL", touched := true } := by rfl
  have hcStr : cStr (str "DEL " ++ key) = str "DEL " ++ key := by
    apply cStr_of_nulFree
    have hbefore : (0 : Byte) ∉ str "DEL " := by decide +kernel
    simp only [NulFree, List.mem_append, not_or]
    exact ⟨hbefore, hnul⟩
  have hplain : percent ∉ (str "DEL " ++ key).dropLast := by
    have hbefore : percent ∉ str "DEL " := by decide +kernel
    rw [List.dropLast_append_of_ne_nil hne]
    simp only [List.mem_append, not_or]
    exact ⟨hbefore, by simpa using hpercent⟩
  have hwords : ∀ word ∈ [key], word ≠ [] ∧ space ∉ word := by simp [hne, hspace]
  have hpush := push_foldl_words hwords { curarg := str "DEL", touched := true } rfl
  simp only [List.flatMap_singleton] at hpush
  rw [redisvFormatCommand, hcStr, formatLoop_plain hplain, hdel, List.append_assoc,
    List.foldl_append, hfold, List.singleton_append, hpush]
  rfl

/-- What is written of arguments, either way. -/
theorem redisFormatSdsCommandArgv_eq (argv : List Str) :
    redisFormatSdsCommandArgv argv = multiBulk argv := by
  have hfold : ∀ (args : List Str) (cmd : Str),
      args.foldl (fun cmd arg =>
        cmd ++ (str "$" ++ stdToString arg.length ++ crlf) ++ arg ++ crlf) cmd =
        cmd ++ args.flatMap fun arg => str "$" ++ stdToString arg.length ++ crlf ++ arg ++ crlf := by
    intro args
    induction args with
    | nil => simp
    | cons arg args ih =>
      intro cmd
      rw [List.foldl_cons, ih]
      simp only [List.flatMap_cons, List.append_assoc]
  rw [redisFormatSdsCommandArgv, hfold, multiBulk]

/-- A command whose reply is awaited. -/
theorem blockForReply_paired (strerror : Errno → Str) {argv : List Str}
    {all : List (List Str)} (h : Paired serve s₀ c cmds cmds.length)
    (henough : Enough serve s₀ all c) (hall : cmds ++ [argv] <+: all) (hok : CommandOk argv) :
    ∃ c', redisBlockForReply (serverText serve s₀) strerror
        { c with obuf := c.obuf ++ multiBulk argv } =
        .returned ((serve (stateAfter serve s₀ cmds) argv).1, c') ∧
      Paired serve s₀ c' (cmds ++ [argv]) (cmds ++ [argv]).length ∧ Enough serve s₀ all c' := by
  have hne : ¬redisOk ≠ redisOk := not_not.mpr rfl
  have henough' : Enough serve s₀ all { c with obuf := c.obuf ++ multiBulk argv } :=
    ⟨henough.sendable, henough.writes, henough.reads, henough.sent, henough.received⟩
  obtain ⟨v, c', hget, hv, hpaired, henough'⟩ :=
    getReply_enough strerror (h.append hok) (by simp) henough' hall
  have hreply : v = (serve (stateAfter serve s₀ cmds) argv).1 := by
    rw [answersTo_append, List.getElem?_append_right (by simp)] at hv
    simpa [answersTo] using hv.symm
  refine ⟨c', ?_, by simpa using hpaired, henough'⟩
  rw [redisBlockForReply, hget, Outcome.returned_bind]
  simp [hne, hreply]

/-- The strings of a change come through. -/
theorem dbUpdate_paired (strerror : Errno → Str) {slaves : Int} {key : Str}
    {values : List KVPair} {given all : List (List Str)}
    (hgiven : given = wanted key values :: if slaves ≠ 0 then [waitArgv vsnprintf slaves] else [])
    (hverbatim : Verbatim (key :: strings values)) (h : Paired serve s₀ c cmds cmds.length)
    (henough : Enough serve s₀ all c) (hall : cmds ++ given <+: all)
    (hok : ∀ argv ∈ given, CommandOk argv) :
    ∃ c', dbUpdate vsnprintf (serverText serve s₀) strerror slaves c key values = .returned c' ∧
      Paired serve s₀ c' (cmds ++ given) (cmds ++ given).length ∧ Enough serve s₀ all c' := by
  obtain ⟨cmd, hcmd, hformat⟩ := updateCommand_formatted vsnprintf hverbatim
  rw [dbUpdate, hcmd, Outcome.returned_bind]
  exact clientCommand_paired strerror hgiven hformat h henough hall hok

/-- `Read` over a connection. -/
theorem dbRead_paired (strerror : Errno → Str) {table key : Str}
    {fields : Option (List Str)} {slaves : Int} {all : List (List Str)}
    (h : Paired serve s₀ c cmds cmds.length) (henough : Enough serve s₀ all c)
    (hall : cmds ++ callCommands vsnprintf slaves (.read table key fields) <+: all)
    (hok : ∀ argv ∈ callCommands vsnprintf slaves (.read table key fields), CommandOk argv) :
    ∃ c', dbCall vsnprintf (serverText serve s₀) strerror slaves c (.read table key fields) =
        (directReply serve (stateAfter serve s₀ cmds) (.read table key fields) >>= fun pairs =>
          .returned (pairs, c')) ∧
      Paired serve s₀ c' (cmds ++ callCommands vsnprintf slaves (.read table key fields))
        (cmds ++ callCommands vsnprintf slaves (.read table key fields)).length ∧
      Enough serve s₀ all c' := by
  have hread : ∀ argv, callCommands vsnprintf slaves (.read table key fields) = [argv] →
      readCommand vsnprintf (serverText serve s₀) strerror c key fields =
        redisBlockForReply (serverText serve s₀) strerror
          { c with obuf := c.obuf ++ multiBulk argv } →
      directReply serve (stateAfter serve s₀ cmds) (.read table key fields) =
        readReply fields (serve (stateAfter serve s₀ cmds) argv).1 →
      ∃ c', dbCall vsnprintf (serverText serve s₀) strerror slaves c (.read table key fields) =
          (directReply serve (stateAfter serve s₀ cmds) (.read table key fields) >>= fun pairs =>
            .returned (pairs, c')) ∧
        Paired serve s₀ c' (cmds ++ [argv]) (cmds ++ [argv]).length ∧ Enough serve s₀ all c' := by
    intro argv hcommands hcommand hdirect
    rw [hcommands] at hall hok
    obtain ⟨c', hreply, hrest⟩ := blockForReply_paired strerror h henough hall
      (hok argv List.mem_cons_self)
    refine ⟨c', ?_, hrest⟩
    rw [dbCall, dbRead, hcommand, hreply, hdirect]
    simp only [Outcome.returned_bind]
    cases hpairs : readReply fields (serve (stateAfter serve s₀ cmds) argv).1 with
    | returned pairs => simp
    | threw e => rfl
    | aborted => rfl
    | undefined => rfl
    | running => rfl
  cases fields with
  | some fields =>
    refine hread (str "HMGET" :: key :: fields) rfl ?_ rfl
    rw [readCommand, redisCommandArgv, redisAppendCommandArgv, redisFormatSdsCommandArgv_eq]
  | none =>
    refine hread [str "HGETALL", cStr key] rfl ?_ rfl
    have hformat := readAll_sends vsnprintf key
    rw [readAllArgv] at hformat
    rw [readCommand, redisCommand, redisAppendCommand, redisvAppendCommand, hformat]
    rfl

/-- **A call over a connection** reads what it reads when the server is asked directly,
    and takes the replies of its commands. -/
theorem dbCall_direct (strerror : Errno → Str) {slaves : Int} {call : Call}
    {all : List (List Str)} (hplain : Plain vsnprintf slaves call)
    (h : Paired serve s₀ c cmds cmds.length) (henough : Enough serve s₀ all c)
    (hall : cmds ++ callCommands vsnprintf slaves call <+: all) :
    ∃ c', dbCall vsnprintf (serverText serve s₀) strerror slaves c call =
        (directReply serve (stateAfter serve s₀ cmds) call >>= fun pairs =>
          .returned (pairs, c')) ∧
      Paired serve s₀ c' (cmds ++ callCommands vsnprintf slaves call)
        (cmds ++ callCommands vsnprintf slaves call).length ∧ Enough serve s₀ all c' := by
  obtain ⟨hok, hverbatim⟩ := hplain
  cases call with
  | change op =>
    cases op with
    | insert table key values =>
      obtain ⟨c', hcall, hrest⟩ :=
        dbUpdate_paired strerror rfl hverbatim h henough hall hok
      exact ⟨c', by rw [dbCall, hcall]; rfl, hrest⟩
    | update table key values =>
      obtain ⟨c', hcall, hrest⟩ :=
        dbUpdate_paired strerror rfl hverbatim h henough hall hok
      exact ⟨c', by rw [dbCall, hcall]; rfl, hrest⟩
    | delete table key =>
      obtain ⟨c', hcall, hrest⟩ := clientCommand_paired strerror rfl
        (delCommand_formatted vsnprintf hverbatim) h henough hall hok
      exact ⟨c', by rw [dbCall, dbDelete, hcall]; rfl, hrest⟩
  | read table key fields => exact dbRead_paired strerror h henough hall hok

/-- Calls on a connection whose replies were all taken. -/
theorem session_direct (strerror : Errno → Str) {slaves : Int} {calls : List Call}
    {all : List (List Str)} (hplain : ∀ call ∈ calls, Plain vsnprintf slaves call)
    (h : Paired serve s₀ c cmds cmds.length) (henough : Enough serve s₀ all c)
    (hall : cmds ++ calls.flatMap (callCommands vsnprintf slaves) <+: all) :
    dbSession vsnprintf (serverText serve s₀) strerror slaves c calls =
      directSession vsnprintf serve slaves (stateAfter serve s₀ cmds) calls := by
  induction calls generalizing c cmds with
  | nil => rfl
  | cons call calls ih =>
    rw [List.flatMap_cons, ← List.append_assoc] at hall
    obtain ⟨c', hcall, hpaired, henough'⟩ := dbCall_direct strerror
      (hplain call List.mem_cons_self) h henough ((List.prefix_append _ _).trans hall)
    have hrest := ih (fun call' hmem => hplain call' (List.mem_cons_of_mem call hmem)) hpaired
      henough' hall
    rw [stateAfter_append] at hrest
    rw [dbSession, directSession, hcall]
    cases directReply serve (stateAfter serve s₀ cmds) call with
    | returned pairs => simp only [Outcome.returned_bind, hrest]
    | threw e => rfl
    | aborted => rfl
    | undefined => rfl
    | running => rfl

/-- **Calls of the Redis back end over a new connection** read what they read when the
    server is asked directly, whatever parts of the texts the kernel takes and gives and
    however often it is interrupted, when it makes progress as often as there are bytes
    and does not fail. -/
theorem session_eq_direct (strerror : Errno → Str) {slaves : Int} {calls : List Call}
    (hplain : ∀ call ∈ calls, Plain vsnprintf slaves call)
    (hvs : ∀ v ∈ answersTo serve s₀ (calls.flatMap (callCommands vsnprintf slaves)),
      Sendable maxDepth v) {writes : List WriteResult}
    {reads : List ReadResult} (hwrites : ∀ r ∈ writes, ¬writeFails r)
    (hreads : ∀ r ∈ reads, ¬readFails r)
    (hsent : (commandText (calls.flatMap (callCommands vsnprintf slaves))).length ≤
      writes.countP progresses)
    (hreceived : (encodeAll (answersTo serve s₀
      (calls.flatMap (callCommands vsnprintf slaves)))).length ≤ reads.countP gives) :
    dbSession vsnprintf (serverText serve s₀) strerror slaves { writes := writes, reads := reads }
        calls = directSession vsnprintf serve slaves s₀ calls :=
  session_direct strerror hplain (paired_new writes reads)
    ⟨hvs, hwrites, hreads, hsent, hreceived⟩ (List.prefix_refl _)

end Steps

/-! ### A server that keeps hashes -/

/-- The values of fields of keys, the last one first. -/
abbrev Hashes := List ((Str × Str) × Str)

/-- `name value name value …` -/
def pairsOf : List Str → List KVPair
  | name :: value :: args => (name, value) :: pairsOf args
  | _ => []

def fieldReply (s : Hashes) (key name : Str) : RedisReply :=
  match s.lookup (key, name) with
  | some value => .string .string value
  | none => .nil

/-- The names of the fields of a key. -/
def namesOf (s : Hashes) (key : Str) : List Str :=
  ((s.filter fun e => e.1.1 = key).map fun e => e.1.2).dedup

def hashServer (s : Hashes) : List Str → RedisReply × Hashes
  | cmd :: key :: args =>
    if cmd = str "HMSET" then
      (.string .status (str "OK"), ((pairsOf args).map fun p => ((key, p.1), p.2)).reverse ++ s)
    else if cmd = str "DEL" then (.integer 1, s.filter fun e => e.1.1 ≠ key)
    else if cmd = str "HMGET" then (.array args.length (args.map (fieldReply s key)), s)
    else if cmd = str "HGETALL" then
      (.array (2 * (namesOf s key).length)
        ((namesOf s key).flatMap fun name => [.string .string name, fieldReply s key name]), s)
    else (.integer 0, s)
  | _ => (.string .error (str "ERR"), s)

/-- `%d` of a number that is not negative. -/
def decimal (_ : Str) (_ : VaType) (n : Int) : Str := stdToString n.toNat

/-- A record inserted, updated, read, deleted and read. -/
def insertToDelete : List Call :=
  [.change (.insert (str "t") (str "1") [(str "a", str "x"), (str "b", str "y")]),
    .change (.update (str "t") (str "1") [(str "b", str "z")]),
    .read (str "t") (str "1") (some [str "b", str "c"]),
    .change (.delete (str "t") (str "1")),
    .read (str "t") (str "1") none]

theorem session_eq_direct_insertToDelete :
    dbSession decimal (serverText hashServer []) (fun _ => []) 1
        { writes := .failed .eintr :: List.replicate 300 (.written 7),
          reads := .failed .eintr :: List.replicate 300 (.bytes 2) } insertToDelete =
      .returned [[], [], [(str "b", str "z"), (str "c", [])], [], []] := by
  rw [session_eq_direct]
  · decide +kernel
  · decide +kernel
  · decide +kernel
  · intro r hr
    rcases List.mem_cons.mp hr with rfl | hr
    · exact fun h => h rfl
    · rw [List.eq_of_mem_replicate hr]
      exact id
  · intro r hr
    rcases List.mem_cons.mp hr with rfl | hr
    · exact fun h => h rfl
    · rw [List.eq_of_mem_replicate hr]
      exact id
  · decide +kernel
  · decide +kernel

end NvrecYcsb.RedisOperations
