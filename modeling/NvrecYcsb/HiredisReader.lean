/-
  NvrecYcsb/HiredisReader.lean
  ============================
  **How hiredis reads replies** (`redis/hiredis/read.c`, and the reply objects of
  `redis/hiredis/hiredis.c`).

  A reader is fed the bytes that come from the server, in whatever pieces they come,
  and is asked for replies.  It keeps a stack of tasks, one for each array that it is
  inside of and one for the item it is at.  An object goes into the array of the task
  below as soon as it is made, so that the reply that is being read is a tree with
  `NULL` where its items are to come.

  A pointer to an object is the way to it from the root: the indices of the tasks.
  Allocation succeeds, and the length of the buffer fits an `int`.  A number that a
  `long long` does not hold, and an element that no array has room for, are
  undefined.
-/
import NvrecYcsb.Hiredis

namespace NvrecYcsb.HiredisReader

open CppRuntime Hiredis

/-! ### Replies -/

/-- `REDIS_REPLY_STRING` to `REDIS_REPLY_ERROR`. -/
inductive ReplyType where
  | string | array | integer | nil | status | error
deriving DecidableEq, Repr

/-- A `redisReply`, or `NULL`. -/
inductive RedisReply where
  | null
  | string (type : ReplyType) (str : Str)
  | integer (integer : Int)
  | nil
  | array (elements : Nat) (element : List RedisReply)

/-- The kinds of an error (`REDIS_ERR_IO` and so on). -/
inductive RedisErrType where
  | io | other | eof | protocol | oom
deriving DecidableEq, Repr

/-- `err` and `errstr`. -/
structure RedisError where
  type : RedisErrType
  errstr : Str
deriving DecidableEq, Repr

/-- A task; `type` is none for `-1`. -/
structure RedisReadTask where
  type : Option ReplyType := none
  elements : Int := -1
  idx : Int
deriving DecidableEq, Repr

/-- A `redisReader`; `rstack[ridx]` is the first task of its stack. -/
structure RedisReader where
  err : Option RedisError := none
  buf : Str := []
  pos : Nat := 0
  rstack : List RedisReadTask := []
  reply : RedisReply := .null

/-- The bytes from `buf + pos` on. -/
def RedisReader.unread (r : RedisReader) : Str := r.buf.drop r.pos

/-! ### Errors -/

/-- `__redisReaderSetError`. -/
def redisReaderSetError (type : RedisErrType) (errstr : Str) : RedisReader :=
  { err := some ⟨type, errstr⟩ }

/-- A digit of `%02x`. -/
def hexDigit (n : Nat) : Byte := UInt8.ofNat (if n < 10 then 48 + n else 87 + n)

/-- `isprint` in the C locale. -/
def isPrint (byte : Byte) : Bool := 32 ≤ byte && byte ≤ 126

/-- `chrtos`. -/
def chrtos (byte : Byte) : Str :=
  if byte = 92 ∨ byte = 34 then str "\"\\" ++ [byte] ++ str "\""
  else if byte = 10 then str "\"\\n\""
  else if byte = 13 then str "\"\\r\""
  else if byte = 9 then str "\"\\t\""
  else if byte = 7 then str "\"\\a\""
  else if byte = 8 then str "\"\\b\""
  else if isPrint byte then str "\"" ++ [byte] ++ str "\""
  else str "\"\\x" ++ [hexDigit (byte.toNat / 16), hexDigit (byte.toNat % 16)] ++ str "\""

/-- The text of `__redisReaderSetErrorProtocolByte`. -/
def protocolByte (byte : Byte) : Str :=
  str "Protocol error, got " ++ chrtos byte ++ str " as reply type byte"

def depthError : Str := str "No support for nested multi bulk replies with depth > 7"

/-! ### Lines and numbers -/

/-- `seekNewline`: the first `\r` that a `\n` follows. -/
def seekNewline : Str → Option Nat
  | [] => none
  | 13 :: 10 :: _ => some 0
  | _ :: s => (seekNewline s).map (· + 1)

def longMax : Int := 2 ^ 63 - 1

/-- The loop of `readLongLong`; it is none at a byte that is not a digit. -/
def readDigits : Str → Int → Outcome (Option Int)
  | [], _ => .undefined
  | c :: s, v =>
    if c = 13 then .returned (some v)
    else if isDigit c then
      let v := v * 10 + (c.toNat - 48)
      if v ≤ longMax then readDigits s v else .undefined
    else .returned none

/-- What `readLongLong` returns after its loop. -/
def signed (mult : Int) : Option Int → Int
  | some v => mult * v
  | none => -1

/-- `readLongLong`. -/
def readLongLong (s : Str) : Outcome Int :=
  match s with
  | 45 :: s => do .returned (signed (-1) (← readDigits s 0))
  | 43 :: s => do .returned (signed 1 (← readDigits s 0))
  | s => do .returned (signed 1 (← readDigits s 0))

/-- `readLine`: the length of the line, and the cursor after it. -/
def readLine (r : RedisReader) : Option (Nat × Nat) :=
  (seekNewline r.unread).map fun len => (len, r.pos + len + 2)

/-! ### Objects -/

/-- The indices that lead from the root to the object of the first task. -/
def path (rstack : List RedisReadTask) : List Int :=
  (rstack.dropLast.map RedisReadTask.idx).reverse

/-- `parent->element[task->idx] = obj`, in the object that the indices lead to; an
    object without a parent is the root. -/
def setAt : List Int → RedisReply → RedisReply → Outcome RedisReply
  | [], obj, _ => .returned obj
  | i :: is, obj, .array elements element =>
    match element[i.toNat]? with
    | some child =>
      if 0 ≤ i then do
        let child ← setAt is obj child
        .returned (.array elements (element.set i.toNat child))
      else .undefined
    | none => .undefined
  | _ :: _, _, .null => .undefined
  | _ :: _, _, _ => .aborted

/-- The conversion to `int`. -/
def toInt (n : Int) : Int := Int.bmod n (2 ^ 32)

/-- The conversion to `size_t`. -/
def toSize (n : Int) : Nat := (n % 2 ^ 64).toNat

/-- `createStringObject`. -/
def createStringObject (r : RedisReader) (type : Option ReplyType) (s : Str) :
    Outcome RedisReply :=
  match type with
  | some .error => setAt (path r.rstack) (.string .error s) r.reply
  | some .status => setAt (path r.rstack) (.string .status s) r.reply
  | some .string => setAt (path r.rstack) (.string .string s) r.reply
  | _ => .aborted

/-- `createArrayObject`. -/
def createArrayObject (r : RedisReader) (elements : Int) : Outcome RedisReply :=
  setAt (path r.rstack)
    (.array (toSize elements) (List.replicate elements.toNat .null)) r.reply

/-- `createIntegerObject`. -/
def createIntegerObject (r : RedisReader) (value : Int) : Outcome RedisReply :=
  setAt (path r.rstack) (.integer value) r.reply

/-- `createNilObject`. -/
def createNilObject (r : RedisReader) : Outcome RedisReply :=
  setAt (path r.rstack) .nil r.reply

/-! ### Items -/

/-- `moveToNextTask`. -/
def moveToNextTask : List RedisReadTask → Outcome (List RedisReadTask)
  | [] => .returned []
  | [_] => .returned []
  | cur :: prv :: rstack =>
    if prv.type ≠ some .array then .aborted
    else if cur.idx = prv.elements - 1 then moveToNextTask (prv :: rstack)
    else if cur.idx < prv.elements then .returned ({ idx := cur.idx + 1 } :: prv :: rstack)
    else .aborted

/-- The object that a line makes. -/
def lineObject (r : RedisReader) (cur : RedisReadTask) (len : Nat) : Outcome RedisReply :=
  if cur.type = some .integer then do createIntegerObject r (← readLongLong r.unread)
  else createStringObject r cur.type (r.unread.take len)

/-- `processLineItem`. -/
def processLineItem (r : RedisReader) (cur : RedisReadTask) : Outcome (Int × RedisReader) :=
  match readLine r with
  | none => .returned (redisErr, r)
  | some (len, pos) => do
    let reply ← lineObject r cur len
    let rstack ← moveToNextTask r.rstack
    .returned (redisOk, { r with pos := pos, reply := reply, rstack := rstack })

/-- `processBulkItem`; the two bytes after the string are not looked at. -/
def processBulkItem (r : RedisReader) (cur : RedisReadTask) : Outcome (Int × RedisReader) :=
  match seekNewline r.unread with
  | none => .returned (redisErr, r)
  | some s => do
    let bytelen := s + 2
    let len ← readLongLong r.unread
    if len < 0 then do
      let reply ← createNilObject r
      let rstack ← moveToNextTask r.rstack
      .returned (redisOk, { r with pos := r.pos + bytelen, reply := reply, rstack := rstack })
    else if longMax < len + 2 then .undefined
    else do
      let bytelen := bytelen + (len.toNat + 2)
      if r.pos + bytelen ≤ r.buf.length then do
        let reply ← createStringObject r cur.type ((r.unread.drop (s + 2)).take len.toNat)
        let rstack ← moveToNextTask r.rstack
        .returned (redisOk, { r with pos := r.pos + bytelen, reply := reply, rstack := rstack })
      else .returned (redisErr, r)

/-- `processMultiBulkItem`.  The number of elements is a `long`, and the array and its
    task take it as an `int`. -/
def processMultiBulkItem (r : RedisReader) (cur : RedisReadTask) : Outcome (Int × RedisReader) :=
  if r.rstack.length - 1 = 8 then
    .returned (redisErr, redisReaderSetError .protocol depthError)
  else
    match readLine r with
    | none => .returned (redisErr, r)
    | some (_, pos) => do
      let elements ← readLongLong r.unread
      if elements = -1 then do
        let reply ← createNilObject r
        let rstack ← moveToNextTask r.rstack
        .returned (redisOk, { r with pos := pos, reply := reply, rstack := rstack })
      else do
        let reply ← createArrayObject r (toInt elements)
        let rstack ←
          if 0 < elements then
            .returned ({ idx := 0 } :: { cur with elements := toInt elements } :: r.rstack.tail)
          else moveToNextTask r.rstack
        .returned (redisOk, { r with pos := pos, reply := reply, rstack := rstack })

/-- The type that a byte stands for. -/
def replyType (byte : Byte) : Option ReplyType :=
  if byte = 45 then some .error        -- '-'
  else if byte = 43 then some .status  -- '+'
  else if byte = 58 then some .integer -- ':'
  else if byte = 36 then some .string  -- '$'
  else if byte = 42 then some .array   -- '*'
  else none

/-- The `switch` of `processItem` on the type of the current task. -/
def processTyped (r : RedisReader) (cur : RedisReadTask) : Outcome (Int × RedisReader) :=
  match cur.type with
  | some .error => processLineItem r cur
  | some .status => processLineItem r cur
  | some .integer => processLineItem r cur
  | some .string => processBulkItem r cur
  | some .array => processMultiBulkItem r cur
  | _ => .aborted

/-- `processItem`. -/
def processItem (r : RedisReader) : Outcome (Int × RedisReader) :=
  match r.rstack with
  | [] => .undefined
  | cur :: rstack =>
    match cur.type with
    | some _ => processTyped r cur
    | none =>
      match r.unread with
      | [] => .returned (redisErr, r)
      | byte :: _ =>
        match replyType byte with
        | none => .returned (redisErr, redisReaderSetError .protocol (protocolByte byte))
        | some type =>
          let cur := { cur with type := some type }
          processTyped { r with pos := r.pos + 1, rstack := cur :: rstack } cur

/-! ### An item that was read moves the cursor -/

theorem lt_of_seekNewline {s : Str} {n : Nat} (h : seekNewline s = some n) : n + 1 < s.length := by
  induction s using seekNewline.induct generalizing n with
  | case1 => cases h
  | case2 => simp only [seekNewline, Option.some.injEq] at h; simp [← h]
  | case3 c s hnot ih =>
    rw [seekNewline] at h
    · obtain ⟨m, hm, rfl⟩ := Option.map_eq_some_iff.mp h
      have hlt := ih hm
      simp only [List.length_cons]
      omega
    · exact hnot

/-- What an item that was read does to the cursor. -/
def Advances (r r' : RedisReader) : Prop :=
  r'.buf = r.buf ∧ r.pos < r'.pos ∧ r.pos < r.buf.length

theorem pos_lt_of_unread {r : RedisReader} (h : r.unread ≠ []) : r.pos < r.buf.length := by
  by_contra hle
  exact h (List.drop_eq_nil_of_le (not_lt.mp hle))

theorem pos_lt_of_seekNewline {r : RedisReader} {n : Nat} (h : seekNewline r.unread = some n) :
    r.pos < r.buf.length := by
  apply pos_lt_of_unread
  intro hnil
  rw [hnil] at h
  cases h

theorem processLineItem_advances {r r' : RedisReader} {cur : RedisReadTask}
    (h : processLineItem r cur = .returned (redisOk, r')) : Advances r r' := by
  rw [processLineItem, readLine] at h
  cases hline : seekNewline r.unread with
  | none => simp [hline, redisErr, redisOk] at h
  | some len =>
    simp only [hline, Option.map_some] at h
    obtain ⟨reply, _, h⟩ := Outcome.bind_eq_returned.mp h
    obtain ⟨rstack, _, h⟩ := Outcome.bind_eq_returned.mp h
    cases h
    exact ⟨rfl, by simp only; omega, pos_lt_of_seekNewline hline⟩

theorem processBulkItem_advances {r r' : RedisReader} {cur : RedisReadTask}
    (h : processBulkItem r cur = .returned (redisOk, r')) : Advances r r' := by
  rw [processBulkItem] at h
  cases hline : seekNewline r.unread with
  | none => simp [hline, redisErr, redisOk] at h
  | some s =>
    have hpos := pos_lt_of_seekNewline hline
    simp only [hline] at h
    obtain ⟨len, _, h⟩ := Outcome.bind_eq_returned.mp h
    split_ifs at h with hnil hrange hwhole
    · obtain ⟨reply, _, h⟩ := Outcome.bind_eq_returned.mp h
      obtain ⟨rstack, _, h⟩ := Outcome.bind_eq_returned.mp h
      cases h
      exact ⟨rfl, by simp only; omega, hpos⟩
    · obtain ⟨reply, _, h⟩ := Outcome.bind_eq_returned.mp h
      obtain ⟨rstack, _, h⟩ := Outcome.bind_eq_returned.mp h
      cases h
      exact ⟨rfl, by simp only; omega, hpos⟩
    · simp [redisErr, redisOk] at h

theorem processMultiBulkItem_advances {r r' : RedisReader} {cur : RedisReadTask}
    (h : processMultiBulkItem r cur = .returned (redisOk, r')) : Advances r r' := by
  rw [processMultiBulkItem, readLine] at h
  split_ifs at h with hdepth
  · simp [redisErr, redisOk] at h
  cases hline : seekNewline r.unread with
  | none => simp [hline, redisErr, redisOk] at h
  | some len =>
    have hpos := pos_lt_of_seekNewline hline
    simp only [hline, Option.map_some] at h
    obtain ⟨elements, _, h⟩ := Outcome.bind_eq_returned.mp h
    split_ifs at h with hnil hmany
    · obtain ⟨reply, _, h⟩ := Outcome.bind_eq_returned.mp h
      obtain ⟨rstack, _, h⟩ := Outcome.bind_eq_returned.mp h
      cases h
      exact ⟨rfl, by simp only; omega, hpos⟩
    · obtain ⟨reply, _, h⟩ := Outcome.bind_eq_returned.mp h
      cases h
      exact ⟨rfl, by simp only; omega, hpos⟩
    · obtain ⟨reply, _, h⟩ := Outcome.bind_eq_returned.mp h
      obtain ⟨rstack, _, h⟩ := Outcome.bind_eq_returned.mp h
      cases h
      exact ⟨rfl, by simp only; omega, hpos⟩

theorem processTyped_advances {r r' : RedisReader} {cur : RedisReadTask}
    (h : processTyped r cur = .returned (redisOk, r')) : Advances r r' := by
  rw [processTyped.eq_def] at h
  split at h
  · exact processLineItem_advances h
  · exact processLineItem_advances h
  · exact processLineItem_advances h
  · exact processBulkItem_advances h
  · exact processMultiBulkItem_advances h
  · cases h

theorem processItem_advances {r r' : RedisReader}
    (h : processItem r = .returned (redisOk, r')) : Advances r r' := by
  rw [processItem.eq_def] at h
  split at h
  · cases h
  split at h
  · exact processTyped_advances h
  split at h
  · simp [redisErr, redisOk] at h
  · rename_i hunread
    split at h
    · simp [redisErr, redisOk] at h
    · obtain ⟨hbuf, hpos, _⟩ := processTyped_advances h
      have hlt : r.pos < r.buf.length := pos_lt_of_unread (by simp [hunread])
      exact ⟨hbuf, by simp only at hpos; omega, hlt⟩

/-! ### The reader -/

/-- The loop of `redisReaderGetReply`. -/
def processItems (r : RedisReader) : Outcome RedisReader :=
  if r.rstack = [] then .returned r
  else
    match _h : processItem r with
    | .returned (status, r') => if _ok : status = redisOk then processItems r' else .returned r'
    | .threw e => .threw e
    | .aborted => .aborted
    | .undefined => .undefined
    | .running => .running
termination_by r.buf.length - r.pos
decreasing_by
  subst _ok
  obtain ⟨hbuf, hpos, hlt⟩ := processItem_advances _h
  rw [hbuf]
  omega

/-- `redisReaderCreate`. -/
def redisReaderCreate : RedisReader := {}

/-- `redisReaderFeed`. -/
def redisReaderFeed (r : RedisReader) (chunk : Str) : Int × RedisReader :=
  if r.err.isSome then (redisErr, r)
  else (redisOk, { r with buf := r.buf ++ chunk })

/-- The item that a reader starts with. -/
def rootTask : RedisReadTask := { idx := -1 }

/-- What was read is thrown away when it is 1k or more. -/
def RedisReader.compact (r : RedisReader) : RedisReader :=
  if 1024 ≤ r.pos then { r with buf := r.unread, pos := 0 } else r

/-- The root of a reply is the first item to process when the stack is empty. -/
def RedisReader.start (r : RedisReader) : RedisReader :=
  if r.rstack = [] then { r with rstack := [rootTask] } else r

/-- What `redisReaderGetReply` does after its loop. -/
def emitReply (r : RedisReader) : Int × RedisReply × RedisReader :=
  if r.err.isSome then (redisErr, .null, r)
  else if r.compact.rstack = [] then (redisOk, r.compact.reply, { r.compact with reply := .null })
  else (redisOk, .null, r.compact)

/-- `redisReaderGetReply`: its status, the reply or `NULL`, and the reader after it. -/
def redisReaderGetReply (r : RedisReader) : Outcome (Int × RedisReply × RedisReader) :=
  if r.err.isSome then .returned (redisErr, .null, r)
  else if r.buf.length = 0 then .returned (redisOk, .null, r)
  else do
    let r ← processItems r.start
    .returned (emitReply r)

end NvrecYcsb.HiredisReader
