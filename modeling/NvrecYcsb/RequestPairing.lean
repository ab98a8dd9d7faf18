/-
  NvrecYcsb/RequestPairing.lean
  =============================
  **Every reply is the reply to its command**, over a blocking connection of hiredis.

  A server reads commands from the bytes it was sent, in the grammar that replies have,
  and answers each of them once, in order.  Whatever parts of the texts the kernel takes
  and gives, what was sent and what is still in the output buffer are the commands given
  so far, one after another; what was received is the beginning of the replies to them;
  and the replies handed out are the first of these.

  * `Paired`: this invariant of a connection;
  * `writeLoop_paired`, `readLoop_paired`: the two loops of `redisGetReply`;
  * `redisGetReply_paired`: a call for a reply gives the reply to the next command; it
    ends in an error only when a call of the kernel fails, and it goes on waiting only
    when the kernel makes less progress than there are bytes.
-/
import NvrecYcsb.HiredisConnection

namespace NvrecYcsb.RequestPairing

open CppRuntime Hiredis HiredisReader RedisReplies IncrementalParsing ReaderRefinement
  ReplyRoundTrip HiredisConnection

/-! ### The server -/

def stringOf : RedisReply → Str
  | .string _ s => s
  | _ => []

/-- The arguments of a command that was read. -/
def argvOf : RedisReply → List Str
  | .array _ vs => vs.map stringOf
  | _ => []

/-- The whole commands in a text. -/
def commandsIn (text : Str) : List (List Str) := (replies.readAll text).items.map argvOf

/-- The text of commands. -/
def commandText (cmds : List (List Str)) : Str := cmds.flatMap multiBulk

/-- The lengths of a command fit their types. -/
def CommandOk (argv : List Str) : Prop :=
  argv.length < 2 ^ 31 ∧ ∀ arg ∈ argv, (arg.length : Int) + 2 ≤ longMax

instance : DecidablePred CommandOk := fun argv =>
  inferInstanceAs (Decidable (argv.length < 2 ^ 31 ∧ ∀ arg ∈ argv, (arg.length : Int) + 2 ≤ longMax))

section Server

variable {S : Type} (serve : S → List Str → RedisReply × S)

/-- The replies to commands. -/
def answersTo (s : S) : List (List Str) → List RedisReply
  | [] => []
  | argv :: cmds => (serve s argv).1 :: answersTo (serve s argv).2 cmds

/-- What the server has sent after it was sent `text`. -/
def serverText (s : S) (text : Str) : Str := encodeAll (answersTo serve s (commandsIn text))

variable {serve}

@[simp] theorem length_answersTo (s : S) (cmds : List (List Str)) :
    (answersTo serve s cmds).length = cmds.length := by
  induction cmds generalizing s with
  | nil => rfl
  | cons argv cmds ih => simp [answersTo, ih]

theorem prefix_answersTo (s : S) {cmds cmds' : List (List Str)} (h : cmds <+: cmds') :
    answersTo serve s cmds <+: answersTo serve s cmds' := by
  obtain ⟨more, rfl⟩ := h
  induction cmds generalizing s with
  | nil => exact List.nil_prefix
  | cons argv cmds ih =>
    rw [List.cons_append, answersTo, answersTo]
    exact (List.prefix_append_right_inj [_]).mpr (ih (serve s argv).2)

end Server

theorem encodeAll_append (vs ws : List RedisReply) :
    encodeAll (vs ++ ws) = encodeAll vs ++ encodeAll ws := by
  induction vs with
  | nil => rfl
  | cons v vs ih => rw [List.cons_append, encodeAll, encodeAll, ih, List.append_assoc]

theorem prefix_encodeAll {vs ws : List RedisReply} (h : vs <+: ws) :
    encodeAll vs <+: encodeAll ws := by
  obtain ⟨more, rfl⟩ := h
  rw [encodeAll_append]
  exact List.prefix_append _ _

/-! ### Commands come back from their text -/

/-- A command as it is sent. -/
def commandReply (argv : List Str) : RedisReply :=
  .array argv.length (argv.map (.string .string))

theorem argvOf_commandReply (argv : List Str) : argvOf (commandReply argv) = argv := by
  rw [commandReply, argvOf, List.map_map]
  exact List.map_id argv

theorem commandText_eq (cmds : List (List Str)) :
    commandText cmds = encodeAll (cmds.map commandReply) := by
  induction cmds with
  | nil => rfl
  | cons argv cmds ih =>
    rw [commandText, List.flatMap_cons, ← commandText, ih, multiBulk_eq]
    rfl

theorem sendable_commandReply {argv : List Str} (h : CommandOk argv) :
    Sendable maxDepth (commandReply argv) := by
  refine ⟨by rw [List.length_map], h.1, ?_⟩
  intro v hv
  obtain ⟨arg, harg, rfl⟩ := List.mem_map.mp hv
  exact h.2 arg harg

variable {cmds : List (List Str)}

theorem readAll_commandText (h : ∀ argv ∈ cmds, CommandOk argv) :
    replies.readAll (commandText cmds) = ⟨cmds.map commandReply, none⟩ := by
  rw [commandText_eq]
  apply readAll_encodeAll
  intro v hv
  obtain ⟨argv, hargv, rfl⟩ := List.mem_map.mp hv
  exact sendable_commandReply (h argv hargv)

theorem map_argvOf (cmds : List (List Str)) : (cmds.map commandReply).map argvOf = cmds := by
  rw [List.map_map]
  have hid : argvOf ∘ commandReply = id := funext argvOf_commandReply
  rw [hid, List.map_id]

/-- **The server reads the commands that were sent.** -/
theorem commandsIn_commandText (h : ∀ argv ∈ cmds, CommandOk argv) :
    commandsIn (commandText cmds) = cmds := by
  rw [commandsIn, readAll_commandText h, map_argvOf]

/-- From the beginning of a text it reads the first commands, and nothing else. -/
theorem prefix_commandsIn (h : ∀ argv ∈ cmds, CommandOk argv) {text : Str}
    (htext : text <+: commandText cmds) : commandsIn text <+: cmds := by
  have hwhole := readAll_commandText h
  obtain ⟨_, hitems⟩ := replies.prefix_readAll htext (by rw [hwhole])
  rw [hwhole] at hitems
  have hmap := hitems.map argvOf
  rwa [map_argvOf] at hmap

theorem commandsIn_mono (h : ∀ argv ∈ cmds, CommandOk argv) {text text' : Str}
    (htext : text <+: text') (htext' : text' <+: commandText cmds) :
    commandsIn text <+: commandsIn text' := by
  have hwhole := readAll_commandText h
  obtain ⟨hnone, _⟩ := replies.prefix_readAll htext' (by rw [hwhole])
  exact (replies.prefix_readAll htext hnone).2.map argvOf

/-! ### The invariant -/

section Paired

variable {S : Type} (serve : S → List Str → RedisReply × S) (s₀ : S)

/-- A connection on which `cmds` were given so far, and the first `taken` replies
    handed out. -/
structure Paired (c : Connection) (cmds : List (List Str)) (taken : Nat) : Prop where
  ok : ∀ argv ∈ cmds, CommandOk argv
  text : c.sent ++ c.obuf = commandText cmds
  received : c.received <+: serverText serve s₀ c.sent
  reader : Agrees { text := c.received, taken := taken } c.reader
  errstr : c.errstr = none

variable {serve} {s₀} {c : Connection} {taken : Nat}

theorem Paired.reader_err (h : Paired serve s₀ c cmds taken) : c.reader.err = none := by
  rcases h.reader.err with ⟨herr, _⟩ | ⟨e, _, hfailure⟩
  · exact herr
  · cases hfailure

theorem Paired.prefix_sent (h : Paired serve s₀ c cmds taken) : c.sent <+: commandText cmds :=
  ⟨c.obuf, h.text⟩

/-- What was received is the beginning of the replies to the commands. -/
theorem Paired.prefix_received (h : Paired serve s₀ c cmds taken) :
    c.received <+: encodeAll (answersTo serve s₀ cmds) :=
  h.received.trans (prefix_encodeAll (prefix_answersTo s₀ (prefix_commandsIn h.ok h.prefix_sent)))

/-- A new connection. -/
theorem paired_new (writes : List WriteResult) (reads : List ReadResult) :
    Paired serve s₀ { writes := writes, reads := reads } [] 0 :=
  ⟨by simp, rfl, List.nil_prefix, agrees_new, rfl⟩

/-- A command is given. -/
theorem Paired.append (h : Paired serve s₀ c cmds taken) {argv : List Str} (hargv : CommandOk argv) :
    Paired serve s₀ { c with obuf := c.obuf ++ multiBulk argv } (cmds ++ [argv]) taken := by
  refine ⟨?_, ?_, h.received, h.reader, h.errstr⟩
  · intro argv' hmem
    rcases List.mem_append.mp hmem with hmem | hmem
    · exact h.ok argv' hmem
    · rw [List.mem_singleton.mp hmem]
      exact hargv
  · have htext := h.text
    simp only [commandText, List.flatMap_append, List.flatMap_singleton] at htext ⊢
    rw [← htext, List.append_assoc]

/-- The reader has the next reply, or it needs more text. -/
theorem fromReader_paired (hvs : ∀ v ∈ answersTo serve s₀ cmds, Sendable maxDepth v)
    (h : Paired serve s₀ c cmds taken) :
    ∃ reader, (redisGetReplyFromReader c = .returned (redisOk, .null, { c with reader := reader }) ∧
        Paired serve s₀ { c with reader := reader } cmds taken ∧
        (c.received = encodeAll (answersTo serve s₀ cmds) →
          (answersTo serve s₀ cmds).drop taken = [])) ∨
      ∃ v, redisGetReplyFromReader c = .returned (redisOk, v, { c with reader := reader }) ∧
        isNull v = false ∧ (answersTo serve s₀ cmds)[taken]? = some v ∧
        Paired serve s₀ { c with reader := reader } cmds (taken + 1) := by
  have herr : redisOk ≠ redisErr := by decide
  have hnext := @next_of_replies _ { text := c.received, taken := taken } hvs rfl
    h.prefix_received
  rcases getReply_agrees h.reader with hundefined | ⟨status, reply, r', hget, hagrees, hreturned⟩
  · rcases hnext with ⟨hnothing, _⟩ | ⟨v, hitem, _⟩
    · rw [hnothing] at hundefined
      cases hundefined
    · rw [hitem] at hundefined
      cases hundefined
  refine ⟨r', ?_⟩
  rcases hnext with ⟨hnothing, hnone⟩ | ⟨v, hitem, hv⟩
  · rw [hnothing] at hreturned hagrees
    obtain ⟨rfl, rfl, _⟩ := Returned.mk.inj (Outcome.returned.inj hreturned)
    left
    refine ⟨?_, ⟨h.ok, h.text, h.received, hagrees, h.errstr⟩, hnone⟩
    rw [redisGetReplyFromReader, hget, Outcome.returned_bind]
    simp [herr]
  · rw [hitem] at hreturned hagrees
    obtain ⟨rfl, rfl, _⟩ := Returned.mk.inj (Outcome.returned.inj hreturned)
    right
    have hget? : (answersTo serve s₀ cmds)[taken]? = some v := by
      rw [← List.head?_drop]
      simp [hv]
    have hsendable : Sendable maxDepth v := hvs v (List.mem_of_getElem? hget?)
    refine ⟨v, ?_, ?_, hget?, ⟨h.ok, h.text, h.received, hagrees, h.errstr⟩⟩
    · rw [redisGetReplyFromReader, hget, Outcome.returned_bind]
      simp [herr]
    · cases v with
      | null => exact hsendable.elim
      | string type s => rfl
      | integer n => rfl
      | nil => rfl
      | array n vs => rfl

/-- The kernel takes bytes. -/
def progresses : WriteResult → Bool
  | .written n => 0 < n
  | .failed _ => false

/-- The kernel gives bytes. -/
def gives : ReadResult → Bool
  | .bytes _ => true
  | _ => false

/-- A connection later on.  The results of the kernel's calls are among those that were
    to come, and each that made progress is still there or had a byte sent or received. -/
structure Later (c c' : Connection) : Prop where
  writes : ∀ r ∈ c'.writes, r ∈ c.writes
  reads : ∀ r ∈ c'.reads, r ∈ c.reads
  sent : c.writes.countP progresses + c.sent.length ≤
    c'.writes.countP progresses + c'.sent.length
  received : c.reads.countP gives + c.received.length ≤
    c'.reads.countP gives + c'.received.length

theorem Later.refl (c : Connection) : Later c c := ⟨fun _ => id, fun _ => id, le_refl _, le_refl _⟩

theorem Later.trans {c c' c'' : Connection} (h : Later c c') (h' : Later c' c'') : Later c c'' :=
  ⟨fun r hr => h.writes r (h'.writes r hr), fun r hr => h.reads r (h'.reads r hr),
    h.sent.trans h'.sent, h.received.trans h'.received⟩

/-! ### Writing -/

def writeFails : WriteResult → Prop
  | .written _ => False
  | .failed e => e ≠ .eintr

/-- How the loop that writes ends: it is still writing, and the kernel took fewer bytes
    than there are; or a call failed; or everything was sent. -/
inductive Written (serve : S → List Str → RedisReply × S) (s₀ : S) (c : Connection)
    (cmds : List (List Str)) (taken : Nat) : Outcome (Int × Connection) → Prop
  | waits (h : c.writes.countP progresses < c.obuf.length) : Written serve s₀ c cmds taken .running
  | fails {c' : Connection} (herr : c'.errstr.isSome) (h : ∃ r ∈ c.writes, writeFails r) :
    Written serve s₀ c cmds taken (.returned (redisErr, c'))
  | sent {c' : Connection} (h : Paired serve s₀ c' cmds taken) (hobuf : c'.obuf = [])
    (hreceived : c'.received = c.received) (hreads : c'.reads = c.reads)
    (hlater : Later c c') :
    Written serve s₀ c cmds taken (.returned (redisOk, c'))

variable {strerror : Errno → Str}

theorem writeLoop_more {c c' : Connection}
    (h : redisBufferWrite strerror c = .returned (redisOk, false, c')) :
    writeLoop strerror c = writeLoop strerror c' := by
  rw [writeLoop]
  split <;> simp_all

theorem writeLoop_ends {c c' : Connection} {status : Int} {wdone : Bool}
    (h : redisBufferWrite strerror c = .returned (status, wdone, c'))
    (hends : ¬(status = redisOk ∧ wdone = false)) :
    writeLoop strerror c = .returned (status, c') := by
  rw [writeLoop]
  split <;> simp_all

theorem writeLoop_running {c : Connection} (h : redisBufferWrite strerror c = .running) :
    writeLoop strerror c = .running := by
  rw [writeLoop]
  split <;> simp_all

/-- The kernel takes some bytes. -/
theorem Paired.written (h : Paired serve s₀ c cmds taken) (n : Nat) (writes : List WriteResult) :
    Paired serve s₀
      { c with obuf := c.obuf.drop n, sent := c.sent ++ c.obuf.take n, writes := writes }
      cmds taken := by
  have htext : c.sent ++ c.obuf.take n ++ c.obuf.drop n = commandText cmds := by
    rw [List.append_assoc, List.take_append_drop, h.text]
  have hmono := commandsIn_mono h.ok (List.prefix_append c.sent (c.obuf.take n)) ⟨_, htext⟩
  exact ⟨h.ok, htext, h.received.trans (prefix_encodeAll (prefix_answersTo s₀ hmono)), h.reader,
    h.errstr⟩

/-- The rest of the loop, after one call. -/
theorem Written.before {c c' : Connection} {x : Outcome (Int × Connection)}
    (h : Written serve s₀ c' cmds taken x) (hreceived : c'.received = c.received)
    (hreads : c'.reads = c.reads) (hlater : Later c c')
    (hwaits : c'.writes.countP progresses < c'.obuf.length →
      c.writes.countP progresses < c.obuf.length) : Written serve s₀ c cmds taken x := by
  cases h with
  | waits h => exact .waits (hwaits h)
  | fails herr h =>
    obtain ⟨r, hr, hfails⟩ := h
    exact .fails herr ⟨r, hlater.writes r hr, hfails⟩
  | sent h hobuf hreceived' hreads' hlater' =>
    exact .sent h hobuf (hreceived'.trans hreceived) (hreads'.trans hreads)
      (hlater.trans hlater')

/-- **The loop that writes.** -/
theorem writeLoop_paired (h : Paired serve s₀ c cmds taken) :
    Written serve s₀ c cmds taken (writeLoop strerror c) := by
  induction hwrites : c.writes generalizing c with
  | nil =>
    by_cases hobuf : c.obuf = []
    · have hwrite : redisBufferWrite strerror c = .returned (redisOk, true, c) := by
        simp [redisBufferWrite, h.errstr, hobuf]
      rw [writeLoop_ends hwrite (by simp)]
      exact .sent h hobuf rfl rfl (Later.refl c)
    · have hwrite : redisBufferWrite strerror c = .running := by
        simp [redisBufferWrite, h.errstr, hobuf, hwrites]
      rw [writeLoop_running hwrite]
      exact .waits (by simpa [hwrites] using List.length_pos_of_ne_nil hobuf)
  | cons result writes ih =>
    by_cases hobuf : c.obuf = []
    · have hwrite : redisBufferWrite strerror c = .returned (redisOk, true, c) := by
        simp [redisBufferWrite, h.errstr, hobuf]
      rw [writeLoop_ends hwrite (by simp)]
      exact .sent h hobuf rfl rfl (Later.refl c)
    have hmem : ∀ r ∈ writes, r ∈ c.writes := by
      intro r hr
      rw [hwrites]
      exact List.mem_cons_of_mem result hr
    have hcount : c.writes.countP progresses =
        writes.countP progresses + if progresses result then 1 else 0 := by
      rw [hwrites, List.countP_cons]
    cases result with
    | failed e =>
      by_cases heintr : e = .eintr
      · have hwrite : redisBufferWrite strerror c =
            .returned (redisOk, false, { c with writes := writes }) := by
          simp [redisBufferWrite, h.errstr, hobuf, hwrites, heintr]
        have hrest := @ih { c with writes := writes } ⟨h.ok, h.text, h.received, h.reader, h.errstr⟩ rfl
        rw [writeLoop_more hwrite]
        have hlater : Later c { c with writes := writes } :=
          ⟨hmem, fun _ => id, by rw [hcount]; exact le_refl _, le_refl _⟩
        exact hrest.before rfl rfl hlater (by rw [hcount]; exact id)
      · have hwrite : redisBufferWrite strerror c =
            .returned (redisErr, false, redisSetError { c with writes := writes } (strerror e)) := by
          simp [redisBufferWrite, h.errstr, hobuf, hwrites]
        rw [writeLoop_ends hwrite (by simp [redisErr, redisOk])]
        exact .fails rfl ⟨.failed e, by simp [hwrites], heintr⟩
    | written n =>
      have hpaired := h.written n writes
      have hwrite : redisBufferWrite strerror c = .returned (redisOk, c.obuf.drop n = [],
          { c with obuf := c.obuf.drop n, sent := c.sent ++ c.obuf.take n, writes := writes }) := by
        simp [redisBufferWrite, h.errstr, hobuf, hwrites]
      have hlater : Later c
          { c with obuf := c.obuf.drop n, sent := c.sent ++ c.obuf.take n, writes := writes } := by
        refine ⟨hmem, fun _ => id, ?_, le_refl _⟩
        have hpos := List.length_pos_of_ne_nil hobuf
        simp only [List.length_append, List.length_take, hcount, progresses, decide_eq_true_eq]
        split_ifs <;> omega
      by_cases hdone : c.obuf.drop n = []
      · rw [writeLoop_ends hwrite (by simp [hdone])]
        exact .sent hpaired hdone rfl rfl hlater
      · have hmore := hwrite
        rw [decide_eq_false hdone] at hmore
        rw [writeLoop_more hmore]
        refine (ih hpaired rfl).before rfl rfl hlater ?_
        intro hlt
        simp only [List.length_drop] at hlt
        by_cases hn : 0 < n
        · simp only [progresses, hn, decide_true, if_true] at hcount
          omega
        · simp only [progresses, hn, decide_false, Bool.false_eq_true, if_false] at hcount
          omega

/-! ### Reading -/

def readFails : ReadResult → Prop
  | .bytes _ => False
  | .eof => True
  | .failed e => e ≠ .eintr

/-- The bytes that the replies to the commands have and the client has not received. -/
def missing (serve : S → List Str → RedisReply × S) (s₀ : S) (c : Connection)
    (cmds : List (List Str)) : Nat :=
  (encodeAll (answersTo serve s₀ cmds)).length - c.received.length

/-- How the loop that reads ends: it is still reading, and the kernel gave no bytes often
    enough; or a call failed; or it has the next reply. -/
inductive Replied (serve : S → List Str → RedisReply × S) (s₀ : S) (c : Connection)
    (cmds : List (List Str)) (taken : Nat) : Outcome (Int × RedisReply × Connection) → Prop
  | waits (h : c.reads.countP gives < missing serve s₀ c cmds) :
    Replied serve s₀ c cmds taken .running
  | fails {c' : Connection} (herr : c'.errstr.isSome) (h : ∃ r ∈ c.reads, readFails r) :
    Replied serve s₀ c cmds taken (.returned (redisErr, .null, c'))
  | reply {c' : Connection} {v : RedisReply} (hv : (answersTo serve s₀ cmds)[taken]? = some v)
    (h : Paired serve s₀ c' cmds (taken + 1)) (hlater : Later c c') :
    Replied serve s₀ c cmds taken (.returned (redisOk, v, c'))

variable {server : Str → Str}

theorem readLoop_running {c : Connection} (h : redisBufferRead server strerror c = .running) :
    readLoop server strerror c = .running := by
  rw [readLoop]
  split <;> simp_all

theorem readLoop_fails {c c' : Connection}
    (h : redisBufferRead server strerror c = .returned (redisErr, c')) :
    readLoop server strerror c = .returned (redisErr, .null, c') := by
  have herr : redisErr ≠ redisOk := by decide
  rw [readLoop]
  split <;> simp_all

theorem readLoop_more {c c' c'' : Connection}
    (h : redisBufferRead server strerror c = .returned (redisOk, c'))
    (hreply : redisGetReplyFromReader c' = .returned (redisOk, .null, c'')) :
    readLoop server strerror c = readLoop server strerror c'' := by
  rw [readLoop]
  split
  · rename_i status c₁ hread
    obtain ⟨rfl, rfl⟩ := Prod.mk.inj (Outcome.returned.inj (h.symm.trans hread))
    rw [dif_pos rfl]
    split <;> simp_all [isNull]
  all_goals simp_all

theorem readLoop_reply {c c' c'' : Connection} {v : RedisReply}
    (h : redisBufferRead server strerror c = .returned (redisOk, c'))
    (hreply : redisGetReplyFromReader c' = .returned (redisOk, v, c'')) (hv : isNull v = false) :
    readLoop server strerror c = .returned (redisOk, v, c'') := by
  rw [readLoop]
  split
  · rename_i status c₁ hread
    obtain ⟨rfl, rfl⟩ := Prod.mk.inj (Outcome.returned.inj (h.symm.trans hread))
    rw [dif_pos rfl]
    split <;> simp_all
  all_goals simp_all

/-- Bytes are received. -/
theorem Paired.fed (h : Paired serve s₀ c cmds taken) (n : Nat) (reads : List ReadResult) :
    Paired serve s₀
      { c with
        reads := reads
        reader := (redisReaderFeed c.reader ((c.waiting (serverText serve s₀)).take n)).2
        received := c.received ++ (c.waiting (serverText serve s₀)).take n }
      cmds taken := by
  have hwaiting : c.received ++ c.waiting (serverText serve s₀) = serverText serve s₀ c.sent := by
    obtain ⟨more, hmore⟩ := h.received
    rw [Connection.waiting, ← hmore, List.drop_left]
  refine ⟨h.ok, h.text, ?_, (feed_agrees h.reader _).1, h.errstr⟩
  rw [← hwaiting]
  exact (List.prefix_append_right_inj _).mpr (List.take_prefix _ _)

/-- The rest of the loop, after one call. -/
theorem Replied.before {c c' : Connection} {x : Outcome (Int × RedisReply × Connection)}
    (h : Replied serve s₀ c' cmds taken x) (hlater : Later c c')
    (hwaits : c'.reads.countP gives < missing serve s₀ c' cmds →
      c.reads.countP gives < missing serve s₀ c cmds) : Replied serve s₀ c cmds taken x := by
  cases h with
  | waits h => exact .waits (hwaits h)
  | fails herr h =>
    obtain ⟨r, hr, hfails⟩ := h
    exact .fails herr ⟨r, hlater.reads r hr, hfails⟩
  | reply hv h hlater' => exact .reply hv h (hlater.trans hlater')

theorem Paired.received_lt (h : Paired serve s₀ c cmds taken)
    (hreceived : c.received ≠ encodeAll (answersTo serve s₀ cmds)) :
    c.received.length < (encodeAll (answersTo serve s₀ cmds)).length := by
  have hle := h.prefix_received.length_le
  have hne : c.received.length ≠ (encodeAll (answersTo serve s₀ cmds)).length :=
    fun heq => hreceived (h.prefix_received.eq_of_length heq)
  omega

/-- When everything was sent, the server has sent all replies. -/
theorem Paired.serverText_eq (h : Paired serve s₀ c cmds taken) (hobuf : c.obuf = []) :
    serverText serve s₀ c.sent = encodeAll (answersTo serve s₀ cmds) := by
  have hsent : c.sent = commandText cmds := by rw [← h.text, hobuf, List.append_nil]
  rw [serverText, hsent, commandsIn_commandText h.ok]

/-- **The loop that reads**, when everything was sent and a reply is still to come. -/
theorem readLoop_paired (hvs : ∀ v ∈ answersTo serve s₀ cmds, Sendable maxDepth v)
    (h : Paired serve s₀ c cmds taken) (htaken : taken < cmds.length) (hobuf : c.obuf = [])
    (hreceived : c.received ≠ encodeAll (answersTo serve s₀ cmds)) :
    Replied serve s₀ c cmds taken (readLoop (serverText serve s₀) strerror c) := by
  induction hreads : c.reads generalizing c with
  | nil =>
    have hread : redisBufferRead (serverText serve s₀) strerror c = .running := by
      simp [redisBufferRead, h.errstr, hreads, readSocket]
      rfl
    rw [readLoop_running hread]
    have hlt := h.received_lt hreceived
    exact .waits (by simp only [hreads, missing, List.countP_nil]; omega)
  | cons result reads ih =>
    have hmem : ∀ r ∈ reads, r ∈ c.reads := by
      intro r hr
      rw [hreads]
      exact List.mem_cons_of_mem result hr
    -- after a call that went well there is a reply, or the loop goes on
    have hgoes : ∀ c', redisBufferRead (serverText serve s₀) strerror c = .returned (redisOk, c') →
        Paired serve s₀ c' cmds taken → c'.obuf = [] → c'.reads = reads → Later c c' →
        (reads.countP gives < missing serve s₀ c' cmds →
          c.reads.countP gives < missing serve s₀ c cmds) →
        Replied serve s₀ c cmds taken (readLoop (serverText serve s₀) strerror c) := by
      intro c' hread hpaired hobuf' hreads' hlater hwaits
      obtain ⟨reader, ⟨hnothing, hpaired', hall⟩ | ⟨v, hreply, hnull, hv, hpaired'⟩⟩ :=
        fromReader_paired hvs hpaired
      · rw [readLoop_more hread hnothing]
        have hmissing : c'.received ≠ encodeAll (answersTo serve s₀ cmds) := by
          intro heq
          have hlength := List.drop_eq_nil_iff.mp (hall heq)
          rw [length_answersTo] at hlength
          omega
        have hlater' : Later c { c' with reader := reader } :=
          ⟨hlater.writes, hlater.reads, hlater.sent, hlater.received⟩
        refine (ih hpaired' hobuf' hmissing hreads').before hlater' ?_
        intro hlt
        exact hwaits (hreads' ▸ hlt)
      · rw [readLoop_reply hread hreply hnull]
        exact .reply hv hpaired' ⟨hlater.writes, hlater.reads, hlater.sent, hlater.received⟩
    have hcount : c.reads.countP gives = reads.countP gives + if gives result then 1 else 0 := by
      rw [hreads, List.countP_cons]
    cases result with
    | eof =>
      have hread : redisBufferRead (serverText serve s₀) strerror c = .returned (redisErr,
          redisSetError { c with reads := reads } (str "Server closed the connection")) := by
        simp [redisBufferRead, h.errstr, hreads, readSocket, afterRead]
      rw [readLoop_fails hread]
      exact .fails rfl ⟨.eof, by simp [hreads], trivial⟩
    | failed e =>
      by_cases heintr : e = .eintr
      · have hread : redisBufferRead (serverText serve s₀) strerror c =
            .returned (redisOk, { c with reads := reads }) := by
          simp [redisBufferRead, h.errstr, hreads, readSocket, afterRead, heintr]
        exact hgoes _ hread ⟨h.ok, h.text, h.received, h.reader, h.errstr⟩ hobuf rfl
          ⟨fun _ => id, hmem, le_refl _, by rw [hcount]; exact le_refl _⟩ (by rw [hcount]; exact id)
      · have hread : redisBufferRead (serverText serve s₀) strerror c =
            .returned (redisErr, redisSetError { c with reads := reads } (strerror e)) := by
          simp [redisBufferRead, h.errstr, hreads, readSocket, afterRead]
        rw [readLoop_fails hread]
        exact .fails rfl ⟨.failed e, by simp [hreads], heintr⟩
    | bytes n =>
      have hwaiting : c.waiting (serverText serve s₀) ≠ [] := by
        rw [Connection.waiting, h.serverText_eq hobuf]
        exact fun hnil => absurd (h.received_lt hreceived) (not_lt.mpr (List.drop_eq_nil_iff.mp hnil))
      have hfed : ∀ chunk, (redisReaderFeed c.reader chunk).1 = redisOk := by
        intro chunk
        simp [redisReaderFeed, h.reader_err]
      have htake : 0 < ((c.waiting (serverText serve s₀)).take (min (n + 1) bufSize)).length := by
        have hpos := List.length_pos_of_ne_nil hwaiting
        rw [List.length_take, bufSize]
        omega
      have hgives : gives (.bytes n) = true := rfl
      rw [if_pos hgives] at hcount
      refine hgoes _ ?_ (h.fed (min (n + 1) bufSize) reads) hobuf rfl
        ⟨fun _ => id, hmem, le_refl _, ?_⟩ ?_
      · simp [redisBufferRead, h.errstr, hreads, readSocket, hwaiting, afterRead, hfed]
      · simp only [hcount, List.length_append]
        omega
      · intro hlt
        simp only [missing, List.length_append] at hlt ⊢
        rw [hcount]
        omega

/-! ### A call for a reply -/

/-- **A call for a reply** when a command waits for one: it gives the reply to the first
    such command and leaves the others to be asked for; it ends in an error only when a
    call of the kernel fails; and it goes on waiting only when the kernel took or gave
    bytes less often than there are bytes. -/
theorem redisGetReply_paired (hvs : ∀ v ∈ answersTo serve s₀ cmds, Sendable maxDepth v)
    (h : Paired serve s₀ c cmds taken) (htaken : taken < cmds.length) :
    (redisGetReply (serverText serve s₀) strerror c = .running ∧
        (c.writes.countP progresses < c.obuf.length ∨
          c.reads.countP gives < missing serve s₀ c cmds)) ∨
      (∃ c', redisGetReply (serverText serve s₀) strerror c = .returned (redisErr, .null, c') ∧
        c'.errstr.isSome ∧ ((∃ r ∈ c.writes, writeFails r) ∨ ∃ r ∈ c.reads, readFails r)) ∨
      ∃ v c', redisGetReply (serverText serve s₀) strerror c = .returned (redisOk, v, c') ∧
        (answersTo serve s₀ cmds)[taken]? = some v ∧ Paired serve s₀ c' cmds (taken + 1) ∧
        Later c c' := by
  have herr : redisOk ≠ redisErr := by decide
  obtain ⟨reader, ⟨hnothing, hpaired, hall⟩ | ⟨v, hreply, hnull, hv, hpaired⟩⟩ :=
    fromReader_paired hvs h
  all_goals
    have hfirst : Later c { c with reader := reader } :=
      ⟨fun _ => id, fun _ => id, le_refl _, le_refl _⟩
  · have hget : redisGetReply (serverText serve s₀) strerror c =
        (writeLoop strerror { c with reader := reader } >>= fun r =>
          if r.1 = redisErr then .returned (redisErr, .null, r.2)
          else readLoop (serverText serve s₀) strerror r.2) := by
      rw [redisGetReply, hnothing, Outcome.returned_bind]
      simp [herr, isNull]
    have hmissing : c.received ≠ encodeAll (answersTo serve s₀ cmds) := by
      intro heq
      have hlength := List.drop_eq_nil_iff.mp (hall heq)
      rw [length_answersTo] at hlength
      omega
    rw [hget]
    have hwritten : Written serve s₀ { c with reader := reader } cmds taken
        (writeLoop strerror { c with reader := reader }) := writeLoop_paired hpaired
    generalize writeLoop strerror { c with reader := reader } = written at hwritten ⊢
    cases hwritten with
    | waits hlt => exact .inl ⟨rfl, .inl hlt⟩
    | fails hsome hfails =>
      refine .inr (.inl ⟨_, ?_, hsome, .inl hfails⟩)
      rw [Outcome.returned_bind, if_pos rfl]
    | @sent c' hsent hobuf hreceived hreads hlater =>
      rw [Outcome.returned_bind, if_neg herr]
      have hreplied : Replied serve s₀ c' cmds taken
          (readLoop (serverText serve s₀) strerror c') :=
        readLoop_paired hvs hsent htaken hobuf (by rw [hreceived]; exact hmissing)
      generalize readLoop (serverText serve s₀) strerror c' = replied at hreplied ⊢
      cases hreplied with
      | waits hlt =>
        rw [missing, hreads, hreceived] at hlt
        exact .inl ⟨rfl, .inr hlt⟩
      | fails hsome hfails => exact .inr (.inl ⟨_, rfl, hsome, .inr (hreads ▸ hfails)⟩)
      | reply hv hpaired' hlater' =>
        exact .inr (.inr ⟨_, _, rfl, hv, hpaired', (hfirst.trans hlater).trans hlater'⟩)
  · refine .inr (.inr ⟨v, _, ?_, hv, hpaired, hfirst⟩)
    rw [redisGetReply, hreply, Outcome.returned_bind]
    simp [herr, hnull]

end Paired

/-- A server that answers each command with its first word. -/
def echo (argv : List Str) : RedisReply := .string .string (argv.headD [])

/-- A `PING` that is to be sent, when the kernel takes and gives single bytes and is
    interrupted now and then. -/
def pinging : Connection :=
  { obuf := multiBulk [str "PING"]
    writes := .failed .eintr :: List.replicate 14 (.written 1)
    reads := .bytes 0 :: .failed .eintr :: List.replicate 9 (.bytes 0) }

theorem redisGetReply_paired_pinging :
    ∃ c', redisGetReply (serverText (fun s argv => (echo argv, s)) ()) (fun _ => []) pinging =
        .returned (redisOk, .string .string (str "PING"), c') ∧
      Paired (fun s argv => (echo argv, s)) () c' [[str "PING"]] 1 := by
  have hok : CommandOk [str "PING"] := by decide
  have hpaired : Paired (fun s argv => (echo argv, s)) () pinging [[str "PING"]] 0 :=
    (paired_new (.failed .eintr :: List.replicate 14 (.written 1))
      (.bytes 0 :: .failed .eintr :: List.replicate 9 (.bytes 0))).append hok
  have hvs : ∀ v ∈ answersTo (fun s argv => (echo argv, s)) () [[str "PING"]],
      Sendable maxDepth v := by
    decide
  rcases redisGetReply_paired hvs hpaired (by decide) with ⟨_, hwaits⟩ | ⟨_, _, _, hfails⟩ |
    ⟨v, c', hget, hv, hpaired', _⟩
  · exact absurd hwaits (by decide +kernel)
  · exact absurd hfails (by simp [pinging, writeFails, readFails])
  · obtain rfl : RedisReply.string .string (str "PING") = v := Option.some.inj hv
    exact ⟨c', hget, hpaired'⟩

end NvrecYcsb.RequestPairing
