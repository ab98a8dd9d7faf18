/-
  NvrecYcsb/HiredisConnection.lean
  ================================
  **A blocking connection of hiredis** (`redisBufferWrite` to `redisCommandArgv` of
  `redis/hiredis/hiredis.c`).

  Commands go into the output buffer, and nothing is sent before a reply is asked for.
  A call for a reply then writes until the buffer is empty, and reads until the reader
  has a reply.  The kernel may take or give a part of the bytes, interrupt a call, or
  fail; a read goes on while the server has sent nothing.

  What becomes of each call of `write` and of `read` is in the state, one after
  another.  When they are used up the program is still in its call.  `server` is the
  text that the server has sent, after it was sent so much.
-/
import NvrecYcsb.ReplyRoundTrip

namespace NvrecYcsb.HiredisConnection

open CppRuntime Hiredis HiredisReader

/-! ### The state -/

inductive Errno where
  | eintr
  | other (n : Nat)
deriving DecidableEq

/-- What a call of `write` does: it takes so many bytes, or all when there are fewer. -/
inductive WriteResult where
  | written (n : Nat)
  | failed (e : Errno)
deriving DecidableEq

/-- What a call of `read` does: it gives no more than so many bytes after the first. -/
inductive ReadResult where
  | bytes (n : Nat)
  | eof
  | failed (e : Errno)
deriving DecidableEq

/-- A `redisContext` with its reader, and its socket: the bytes sent and received on
    it, and the results of the calls to come. -/
structure Connection extends RedisContext where
  reader : RedisReader := redisReaderCreate
  sent : Str := []
  received : Str := []
  writes : List WriteResult
  reads : List ReadResult

/-- `sizeof(buf)` of `redisBufferRead`. -/
def bufSize : Nat := 1024 * 16

variable (server : Str → Str) (strerror : Errno → Str)

/-- What the server has sent and the client has not received. -/
def Connection.waiting (c : Connection) : Str := (server c.sent).drop c.received.length

/-- `__redisSetError`. -/
def redisSetError (c : Connection) (errstr : Str) : Connection := { c with errstr := some errstr }

/-! ### Writing -/

/-- `redisBufferWrite`: its status, `done`, and the connection. -/
def redisBufferWrite (c : Connection) : Outcome (Int × Bool × Connection) :=
  if c.errstr.isSome then .returned (redisErr, false, c)
  else if c.obuf = [] then .returned (redisOk, true, c)
  else
    match c.writes with
    | [] => .running
    | .failed .eintr :: writes => .returned (redisOk, false, { c with writes := writes })
    | .failed e :: writes =>
      .returned (redisErr, false, redisSetError { c with writes := writes } (strerror e))
    | .written n :: writes =>
      let obuf := c.obuf.drop n
      .returned (redisOk, obuf = [],
        { c with obuf := obuf, sent := c.sent ++ c.obuf.take n, writes := writes })

theorem redisBufferWrite_shorter {c c' : Connection}
    (h : redisBufferWrite strerror c = .returned (redisOk, false, c')) :
    c'.writes.length < c.writes.length := by
  rw [redisBufferWrite] at h
  split_ifs at h with herr hobuf
  · simp [redisErr, redisOk] at h
  · simp at h
  · split at h
    · cases h
    · rename_i hwrites
      cases h
      simp [hwrites]
    · simp [redisErr, redisOk] at h
    · rename_i hwrites
      simp only [Outcome.returned.injEq, Prod.mk.injEq] at h
      rw [← h.2.2]
      simp [hwrites]

/-- The loop of `redisGetReply` that writes until it is done. -/
def writeLoop (c : Connection) : Outcome (Int × Connection) :=
  match _h : redisBufferWrite strerror c with
  | .returned (status, wdone, c') =>
    if _ok : status = redisOk ∧ wdone = false then writeLoop c' else .returned (status, c')
  | .threw e => .threw e
  | .aborted => .aborted
  | .undefined => .undefined
  | .running => .running
termination_by c.writes.length
decreasing_by
  obtain ⟨rfl, rfl⟩ := _ok
  exact redisBufferWrite_shorter strerror _h

/-! ### Reading -/

/-- `read` on the socket: what it returns, with the results of later calls. -/
def readSocket (waiting : Str) : List ReadResult → Outcome (ReadResult × Str × List ReadResult)
  | [] => .running
  | .bytes n :: reads =>
    if waiting = [] then readSocket waiting reads
    else .returned (.bytes n, waiting.take (min (n + 1) bufSize), reads)
  | r :: reads => .returned (r, [], reads)

/-- What `redisBufferRead` does with the result of its call. -/
def afterRead (c : Connection) (chunk : Str) : ReadResult → Int × Connection
  | .failed .eintr => (redisOk, c)
  | .failed e => (redisErr, redisSetError c (strerror e))
  | .eof => (redisErr, redisSetError c (str "Server closed the connection"))
  | .bytes _ =>
    let fed := redisReaderFeed c.reader chunk
    let c := { c with reader := fed.2, received := c.received ++ chunk }
    if fed.1 ≠ redisOk then
      (redisErr, redisSetError c ((fed.2.err.map RedisError.errstr).getD []))
    else (redisOk, c)

/-- `redisBufferRead`. -/
def redisBufferRead (c : Connection) : Outcome (Int × Connection) :=
  if c.errstr.isSome then .returned (redisErr, c)
  else do
    let (result, chunk, reads) ← readSocket (c.waiting server) c.reads
    .returned (afterRead strerror { c with reads := reads } chunk result)

/-- `redisGetReplyFromReader`. -/
def redisGetReplyFromReader (c : Connection) : Outcome (Int × RedisReply × Connection) := do
  let (status, reply, reader) ← redisReaderGetReply c.reader
  let c := { c with reader := reader }
  if status = redisErr then
    .returned (redisErr, .null, redisSetError c ((reader.err.map RedisError.errstr).getD []))
  else .returned (redisOk, reply, c)

def isNull : RedisReply → Bool
  | .null => true
  | _ => false

theorem readSocket_shorter {waiting chunk : Str} {reads reads' : List ReadResult} {r : ReadResult}
    (h : readSocket waiting reads = .returned (r, chunk, reads')) :
    reads'.length < reads.length := by
  induction reads with
  | nil => cases h
  | cons x reads ih =>
    cases x with
    | bytes n =>
      rw [readSocket] at h
      split_ifs at h
      · exact (ih h).trans (Nat.lt_succ_self _)
      · cases h
        exact Nat.lt_succ_self _
    | eof =>
      cases h
      exact Nat.lt_succ_self _
    | failed e =>
      cases h
      exact Nat.lt_succ_self _

theorem reads_afterRead (c : Connection) (chunk : Str) (result : ReadResult) :
    (afterRead strerror c chunk result).2.reads = c.reads := by
  rw [afterRead.eq_def]
  split
  · rfl
  · rfl
  · rfl
  · simp only
    split_ifs <;> rfl

theorem redisBufferRead_shorter {c c' : Connection}
    (h : redisBufferRead server strerror c = .returned (redisOk, c')) :
    c'.reads.length < c.reads.length := by
  rw [redisBufferRead] at h
  split_ifs at h with herr
  · simp [redisErr, redisOk] at h
  obtain ⟨⟨result, chunk, reads⟩, hread, h⟩ := Outcome.bind_eq_returned.mp h
  have hreads := reads_afterRead strerror { c with reads := reads } chunk result
  simp only [Outcome.returned.injEq] at h
  rw [h] at hreads
  rw [hreads]
  exact readSocket_shorter hread

theorem reads_redisGetReplyFromReader {c c' : Connection} {status : Int} {reply : RedisReply}
    (h : redisGetReplyFromReader c = .returned (status, reply, c')) : c'.reads = c.reads := by
  obtain ⟨⟨status', reply', reader⟩, _, h⟩ := Outcome.bind_eq_returned.mp h
  simp only at h
  split_ifs at h
  · cases h
    rfl
  · cases h
    rfl

/-- The loop of `redisGetReply` that reads until there is a reply. -/
def readLoop (c : Connection) : Outcome (Int × RedisReply × Connection) :=
  match _h : redisBufferRead server strerror c with
  | .returned (status, c') =>
    if _ok : status = redisOk then
      match _hreply : redisGetReplyFromReader c' with
      | .returned (status, reply, c'') =>
        if status = redisOk ∧ isNull reply then readLoop c''
        else .returned (status, reply, c'')
      | .threw e => .threw e
      | .aborted => .aborted
      | .undefined => .undefined
      | .running => .running
    else .returned (status, .null, c')
  | .threw e => .threw e
  | .aborted => .aborted
  | .undefined => .undefined
  | .running => .running
termination_by c.reads.length
decreasing_by
  subst _ok
  rw [reads_redisGetReplyFromReader _hreply]
  exact redisBufferRead_shorter server strerror _h

/-- `redisGetReply`; the reply is set when the status is `REDIS_OK` only. -/
def redisGetReply (c : Connection) : Outcome (Int × RedisReply × Connection) := do
  let (status, aux, c) ← redisGetReplyFromReader c
  if status = redisErr then .returned (redisErr, .null, c)
  else if isNull aux then do
    let (status, c) ← writeLoop strerror c
    if status = redisErr then .returned (redisErr, .null, c)
    else readLoop server strerror c
  else .returned (redisOk, aux, c)

/-! ### Commands -/

/-- `redisAppendCommand`. -/
def redisAppendCommand (vsnprintf : Str → VaType → Int → Str) (c : Connection) (format : Str)
    (ap : List VaArg) : Outcome (Int × Connection) := do
  let (status, context) ← redisvAppendCommand vsnprintf c.toRedisContext format ap
  .returned (status, { c with toRedisContext := context })

/-- `redisFormatSdsCommandArgv`. -/
def redisFormatSdsCommandArgv (argv : List Str) : Str :=
  argv.foldl (fun cmd arg => cmd ++ (str "$" ++ stdToString arg.length ++ crlf) ++ arg ++ crlf)
    (str "*" ++ stdToString argv.length ++ crlf)

/-- `redisAppendCommandArgv`. -/
def redisAppendCommandArgv (c : Connection) (argv : List Str) : Connection :=
  { c with obuf := c.obuf ++ redisFormatSdsCommandArgv argv }

/-- `__redisBlockForReply`: the reply, or `NULL`. -/
def redisBlockForReply (c : Connection) : Outcome (RedisReply × Connection) := do
  let (status, reply, c) ← redisGetReply server strerror c
  if status ≠ redisOk then .returned (.null, c) else .returned (reply, c)

/-- `redisCommand`. -/
def redisCommand (vsnprintf : Str → VaType → Int → Str) (c : Connection) (format : Str)
    (ap : List VaArg) : Outcome (RedisReply × Connection) := do
  let (status, c) ← redisAppendCommand vsnprintf c format ap
  if status ≠ redisOk then .returned (.null, c) else redisBlockForReply server strerror c

/-- `redisCommandArgv`. -/
def redisCommandArgv (c : Connection) (argv : List Str) : Outcome (RedisReply × Connection) :=
  redisBlockForReply server strerror (redisAppendCommandArgv c argv)

end NvrecYcsb.HiredisConnection
