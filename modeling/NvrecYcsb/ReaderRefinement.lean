/-
  NvrecYcsb/ReaderRefinement.lean
  ===============================
  **The reader of hiredis follows the grammar**, in whatever pieces the text comes.

  The stack of a reader is a list of frames, one for each array it is inside of: the
  elements that array has, and how many come after the one that is being read.  With
  the type of the current item, if its byte was read, they say what the reader will
  find in any text that is still to come (`resumeItem`).  One item that is processed
  leaves that as it is.

  * `processItem_spec`, `processItems_spec`: one item, and the loop over them;
  * `session_eq`: the answers of the reader, call by call, are those of the reader
    that keeps everything it was fed and reads it anew.
-/
import NvrecYcsb.RedisReplies

namespace NvrecYcsb.ReaderRefinement

open CppRuntime Hiredis HiredisReader RedisReplies IncrementalParsing

/-! ### Frames -/

/-- An array that is being read: its elements up to the current one, and the number of
    those after it. -/
structure Frame where
  done : List RedisReply
  left : Nat

namespace Frame

def total (f : Frame) : Nat := f.done.length + 1 + f.left

theorem total_next (done : List RedisReply) (v : RedisReply) (left : Nat) :
    (⟨done ++ [v], left⟩ : Frame).total = (⟨done, left + 1⟩ : Frame).total := by
  simp only [Frame.total, List.length_append, List.length_singleton]
  omega

/-- The array with its current element. -/
def array (f : Frame) (v : RedisReply) : RedisReply :=
  .array f.total (f.done ++ v :: List.replicate f.left .null)

end Frame

/-- The reply with its current item, inside of the frames. -/
def plug : List Frame → RedisReply → RedisReply
  | [], v => v
  | f :: frames, v => plug frames (f.array v)

/-- `idx` of the task above the frames. -/
def index : List Frame → Int
  | [] => -1
  | f :: _ => f.done.length

def arrayTasks : List Frame → List RedisReadTask
  | [] => []
  | f :: frames =>
    { type := some .array, elements := f.total, idx := index frames } :: arrayTasks frames

/-- The stack of a reader inside of the frames. -/
def tasks (frames : List Frame) (type : Option ReplyType) : List RedisReadTask :=
  { type := type, idx := index frames } :: arrayTasks frames

/-- The frames after the current item is read; none when it was the last. -/
def advance : List Frame → RedisReply → Option (List Frame)
  | [], _ => none
  | f :: frames, v =>
    match f.left with
    | 0 => advance frames (f.array v)
    | left + 1 => some (⟨f.done ++ [v], left⟩ :: frames)

/-! ### What a reader will find -/

/-- The rest of the reply, after the current item. -/
def resumeValue : List Frame → RedisReply → Str → Found RedisReply
  | [], v, text => .complete v text
  | f :: frames, v, text =>
    (parseElements (parseItem (maxDepth - (frames.length + 1))) f.left text).bind fun vs rest =>
      resumeValue frames (.array f.total (f.done ++ v :: vs)) rest

/-- The current item, its type read or not. -/
def currentItem (depth : Nat) : Option ReplyType → Str → Found RedisReply
  | none, text => parseItem depth text
  | some type, text => parseTyped (elementParser depth) type text

/-- The rest of the reply, from the current item on. -/
def resumeItem (frames : List Frame) (type : Option ReplyType) (text : Str) : Found RedisReply :=
  (currentItem (maxDepth - frames.length) type text).bind (resumeValue frames)

/-- The first element of an array is read before the others. -/
theorem resumeItem_first (frames : List Frame) (n : Nat) (text : Str) :
    resumeItem (⟨[], n⟩ :: frames) none text =
      (parseElements (parseItem (maxDepth - (frames.length + 1))) (n + 1) text).bind fun vs rest =>
        resumeValue frames (.array (n + 1) vs) rest := by
  simp only [parseElements, Parsed.bind_assoc, Parsed.complete_bind]
  rw [resumeItem, List.length_cons]
  congr 1
  funext v rest
  simp [resumeValue, Frame.total, Nat.add_comm]

/-- **What comes after an item** is looked for in the frames that are left. -/
theorem resumeValue_advance (frames : List Frame) (v : RedisReply) (text : Str) :
    resumeValue frames v text =
      match advance frames v with
      | none => .complete (plug frames v) text
      | some frames => resumeItem frames none text := by
  induction frames generalizing v with
  | nil => rfl
  | cons f frames ih =>
    obtain ⟨done, left⟩ := f
    cases left with
    | zero =>
      have harray : (⟨done, 0⟩ : Frame).array v =
          .array (⟨done, 0⟩ : Frame).total (done ++ [v]) := rfl
      simp only [resumeValue, parseElements, Parsed.complete_bind, advance, plug]
      rw [← harray, ih]
    | succ left =>
      have htotal := Frame.total_next done v left
      simp only [advance, resumeItem, currentItem, resumeValue, parseElements, Parsed.bind_assoc,
        Parsed.complete_bind, List.length_cons]
      congr 1
      funext w rest
      simp [htotal]

/-! ### The tree and the stack -/

theorem plug_eq_foldr (frames : List Frame) (v : RedisReply) :
    plug frames v = frames.reverse.foldr Frame.array v := by
  induction frames generalizing v with
  | nil => rfl
  | cons f frames ih => simp [plug, ih]

theorem idx_tasks (frames : List Frame) (type : Option ReplyType) :
    (tasks frames type).map RedisReadTask.idx =
      frames.map (fun f => (f.done.length : Int)) ++ [-1] := by
  induction frames generalizing type with
  | nil => rfl
  | cons f frames ih =>
    have htail := ih (some .array)
    simp only [tasks, List.map_cons, arrayTasks, List.cons_append, index] at htail ⊢
    rw [htail]

theorem path_tasks (frames : List Frame) (type : Option ReplyType) :
    path (tasks frames type) = frames.reverse.map fun f => (f.done.length : Int) := by
  rw [path, List.map_dropLast, idx_tasks, List.dropLast_concat, List.map_reverse]

/-- **An object goes where the current item is.** -/
theorem setAt_plug (frames : List Frame) (type : Option ReplyType) (obj old : RedisReply) :
    setAt (path (tasks frames type)) obj (plug frames old) = .returned (plug frames obj) := by
  rw [path_tasks, plug_eq_foldr, plug_eq_foldr]
  induction frames.reverse with
  | nil => rfl
  | cons f outer ih =>
    have hget : (f.done ++ (outer.foldr Frame.array old) :: List.replicate f.left .null)[f.done.length]? =
        some (outer.foldr Frame.array old) := by simp
    simp only [List.map_cons, List.foldr_cons, Frame.array, setAt, Int.toNat_natCast, hget, ih,
      Outcome.returned_bind, Int.natCast_nonneg, if_true]
    simp

/-- **The task after an item that was read.** -/
theorem moveToNextTask_eq (frames : List Frame) {cur : RedisReadTask}
    (hcur : cur.idx = index frames) (v : RedisReply) :
    moveToNextTask (cur :: arrayTasks frames) =
      .returned (match advance frames v with
        | none => []
        | some frames => tasks frames none) := by
  induction frames generalizing cur v with
  | nil => rfl
  | cons f frames ih =>
    obtain ⟨done, left⟩ := f
    rw [arrayTasks, moveToNextTask, if_neg (by simp), hcur]
    cases left with
    | zero =>
      have hlast : index (⟨done, 0⟩ :: frames) = ((⟨done, 0⟩ : Frame).total : Int) - 1 := by
        simp [index, Frame.total]
      rw [if_pos hlast]
      -- the array was itself the item of the frame below
      exact ih rfl ((⟨done, 0⟩ : Frame).array v)
    | succ left =>
      have hnot : ¬index (⟨done, left + 1⟩ :: frames) =
          ((⟨done, left + 1⟩ : Frame).total : Int) - 1 := by
        simp only [index, Frame.total]
        omega
      have hlt : index (⟨done, left + 1⟩ :: frames) < ((⟨done, left + 1⟩ : Frame).total : Int) := by
        simp only [index, Frame.total]
        omega
      rw [if_neg hnot, if_pos hlt]
      simp [advance, tasks, arrayTasks, index, Frame.total_next]

theorem plug_advance (frames : List Frame) (v : RedisReply) :
    ∀ frames' ∈ advance frames v, plug frames v = plug frames' .null := by
  induction frames generalizing v with
  | nil => simp [advance]
  | cons f frames ih =>
    obtain ⟨done, left⟩ := f
    intro frames' h
    cases left with
    | zero => exact ih _ frames' h
    | succ left =>
      cases h
      simp [plug, Frame.array, Frame.total_next, List.replicate_succ]

theorem length_advance (frames : List Frame) (v : RedisReply) :
    ∀ frames' ∈ advance frames v, frames'.length ≤ frames.length := by
  induction frames generalizing v with
  | nil => simp [advance]
  | cons f frames ih =>
    obtain ⟨done, left⟩ := f
    intro frames' h
    cases left with
    | zero => exact (ih _ frames' h).trans (Nat.le_succ _)
    | succ left =>
      cases h
      exact le_refl _

/-! ### One item -/

/-- A reader in the middle of a reply, and what it will find. -/
structure Reads (r : RedisReader) (frames : List Frame) (type : Option ReplyType)
    (finds : Str → Found RedisReply) : Prop where
  err : r.err = none
  rstack : r.rstack = tasks frames type
  reply : r.reply = plug frames .null
  depth : frames.length ≤ maxDepth
  pos : r.pos ≤ r.buf.length
  finds : ∀ more, finds more = resumeItem frames type (r.unread ++ more)

/-- A reader that has read a reply, and what is left. -/
structure HasRead (r : RedisReader) (finds : Str → Found RedisReply) : Prop where
  err : r.err = none
  rstack : r.rstack = []
  pos : r.pos ≤ r.buf.length
  finds : ∀ more, finds more = .complete r.reply (r.unread ++ more)

/-- How an item ends, for a reader that finds `finds`. -/
inductive Processed (finds : Str → Found RedisReply) : Outcome (Int × RedisReader) → Prop
  /-- The item was read. -/
  | more {r frames} (h : Reads r frames none finds) : Processed finds (.returned (redisOk, r))
  /-- It was the last item of the reply. -/
  | reply {r} (h : HasRead r finds) : Processed finds (.returned (redisOk, r))
  /-- The text ends before the item does. -/
  | short {r frames type} (h : Reads r frames type finds) (hshort : finds [] = .incomplete) :
    Processed finds (.returned (redisErr, r))
  /-- The item is not one. -/
  | error {r e} (herr : r.err = some e) (hfinds : finds [] = .failed (.error e)) :
    Processed finds (.returned (redisErr, r))
  /-- A number is out of range, and there is nothing to say. -/
  | undefined {x} (hfinds : finds [] = .failed .undefined) : Processed finds x

variable {r : RedisReader} {frames : List Frame} {type : ReplyType}
  {finds : Str → Found RedisReply}

/-- **An item that was read** takes the reader to the next one, or to the end. -/
theorem processed_value (h : Reads r frames (some type) finds) (v : RedisReply) {pos : Nat}
    (hpos : pos ≤ r.buf.length)
    (hfinds : ∀ more, finds more = resumeValue frames v (r.buf.drop pos ++ more)) :
    ∃ reply rstack, setAt (path r.rstack) v r.reply = .returned reply ∧
      moveToNextTask r.rstack = .returned rstack ∧
      Processed finds
        (.returned (redisOk, { r with pos := pos, reply := reply, rstack := rstack })) := by
  obtain ⟨herr, hrstack, hreply, hdepth, _, _⟩ := h
  have hset : setAt (path r.rstack) v r.reply = .returned (plug frames v) := by
    rw [hrstack, hreply, setAt_plug]
  have hmove := (congrArg moveToNextTask hrstack).trans (moveToNextTask_eq frames rfl v)
  refine ⟨_, _, hset, hmove, ?_⟩
  simp only [resumeValue_advance] at hfinds
  cases hadvance : advance frames v with
  | none =>
    simp only [hadvance] at hfinds
    exact .reply ⟨herr, rfl, hpos, hfinds⟩
  | some frames' =>
    simp only [hadvance] at hfinds
    have hplug := plug_advance frames v frames' hadvance
    have hlen := length_advance frames v frames' hadvance
    exact .more ⟨herr, rfl, hplug, hlen.trans hdepth, hpos, hfinds⟩

/-! ### Lines -/

theorem eq_of_seekNewline {s : Str} {n : Nat} (h : seekNewline s = some n) :
    s = s.take n ++ 13 :: 10 :: s.drop (n + 2) := by
  induction s using seekNewline.induct generalizing n with
  | case1 => cases h
  | case2 =>
    simp only [seekNewline, Option.some.injEq] at h
    simp [← h]
  | case3 c s hnot ih =>
    rw [seekNewline] at h
    · obtain ⟨m, hm, rfl⟩ := Option.map_eq_some_iff.mp h
      rw [List.take_succ_cons, List.cons_append, List.drop_succ_cons, ← ih hm]
    · exact hnot

theorem readDigits_append (l rest : Str) (v : Int) :
    readDigits (l ++ 13 :: rest) v = readDigits (l ++ [13]) v := by
  induction l generalizing v with
  | nil => simp [readDigits]
  | cons c l ih => simp only [List.cons_append, readDigits, ih]

/-- A number is read from its line only. -/
theorem readLongLong_append (l rest : Str) :
    readLongLong (l ++ 13 :: rest) = readLongLong (l ++ [13]) := by
  cases l with
  | nil => simp [readLongLong, readDigits]
  | cons c l =>
    by_cases hminus : c = 45
    · simp [hminus, readLongLong, readDigits_append]
    by_cases hplus : c = 43
    · simp [hplus, readLongLong, readDigits_append]
    have hdigits := readDigits_append (c :: l) rest 0
    simp only [List.cons_append] at hdigits
    simp [readLongLong, hminus, hplus, hdigits]

theorem readLongLong_of_line {text : Str} {n : Nat} (h : seekNewline text = some n) :
    readLongLong text = readLongLong (text.take n ++ [13]) := by
  conv_lhs => rw [eq_of_seekNewline h]
  exact readLongLong_append _ _

/-- The line that the cursor is at, whatever comes. -/
theorem line_unread {n : Nat} (h : seekNewline r.unread = some n) (more : Str) :
    line (r.unread ++ more) =
      .complete (r.unread.take n) (r.buf.drop (r.pos + n + 2) ++ more) := by
  have hstable := line_stable r.unread more (by simp [line_eq h])
  rw [hstable, line_eq h, Parsed.append_complete, RedisReader.unread, List.drop_drop,
    ← Nat.add_assoc]

theorem pos_line {n : Nat} (h : seekNewline r.unread = some n) :
    r.pos + n + 2 ≤ r.buf.length := by
  have hlt := lt_of_seekNewline h
  rw [RedisReader.unread, List.length_drop] at hlt
  omega

theorem line_short (h : seekNewline r.unread = none) : line (r.unread ++ []) = .incomplete := by
  rw [List.append_nil, line, h]

/-- `readLongLong` at the cursor: a number, or nothing to say. -/
theorem longLong_cases {n : Nat} (h : seekNewline r.unread = some n) :
    (∃ v, readLongLong r.unread = .returned v ∧
      ∀ rest, longLong (r.unread.take n) rest = .complete v rest) ∨
    ∀ rest, longLong (r.unread.take n) rest = .failed .undefined := by
  have hline := readLongLong_of_line h
  cases hvalue : readLongLong (r.unread.take n ++ [13]) with
  | returned v => exact .inl ⟨v, hline.trans hvalue, fun rest => by rw [longLong, hvalue]⟩
  | threw e => exact .inr fun rest => by rw [longLong, hvalue]
  | aborted => exact .inr fun rest => by rw [longLong, hvalue]
  | undefined => exact .inr fun rest => by rw [longLong, hvalue]
  | running => exact .inr fun rest => by rw [longLong, hvalue]

/-! ### The items of each type -/

theorem processLineItem_spec (h : Reads r frames (some type) finds) {cur : RedisReadTask}
    (hcur : cur.type = some type)
    (hparse : parseTyped (elementParser (maxDepth - frames.length)) type = parseLineItem type)
    (htype : type = .error ∨ type = .status ∨ type = .integer) :
    Processed finds (processLineItem r cur) := by
  have hfinds : ∀ more, finds more =
      (parseLineItem type (r.unread ++ more)).bind (resumeValue frames) := by
    intro more
    rw [h.finds, resumeItem, currentItem, hparse]
  cases hseek : seekNewline r.unread with
  | none =>
    rw [processLineItem, readLine, hseek]
    exact .short h (by rw [hfinds, parseLineItem, line_short hseek]; rfl)
  | some n =>
    have hpos := pos_line hseek
    simp only [parseLineItem, line_unread hseek, Parsed.complete_bind] at hfinds
    simp only [processLineItem, readLine, hseek, Option.map_some, lineObject, hcur,
      Option.some.injEq]
    by_cases hinteger : type = .integer
    · simp only [hinteger, if_true] at hfinds ⊢
      rcases longLong_cases hseek with ⟨v, hv, hlong⟩ | hundefined
      · simp only [hlong, Parsed.complete_bind] at hfinds
        obtain ⟨reply, rstack, hset, hmove, hdone⟩ := processed_value h _ hpos hfinds
        simpa only [hv, Outcome.returned_bind, createIntegerObject, hset, hmove] using hdone
      · exact .undefined (by simp [hfinds, hundefined])
    · simp only [hinteger, if_false] at hfinds ⊢
      obtain ⟨reply, rstack, hset, hmove, hdone⟩ := processed_value h _ hpos hfinds
      have hcreate : createStringObject r (some type) (r.unread.take n) = .returned reply := by
        rcases htype with rfl | rfl | rfl
        · exact hset
        · exact hset
        · exact absurd rfl hinteger
      simpa only [hcreate, Outcome.returned_bind, hmove] using hdone

theorem processBulkItem_spec (h : Reads r frames (some .string) finds) {cur : RedisReadTask}
    (hcur : cur.type = some .string) : Processed finds (processBulkItem r cur) := by
  have hfinds : ∀ more, finds more =
      (parseBulkItem (r.unread ++ more)).bind (resumeValue frames) := h.finds
  cases hseek : seekNewline r.unread with
  | none =>
    rw [processBulkItem, hseek]
    exact .short h (by rw [hfinds, parseBulkItem, line_short hseek]; rfl)
  | some n =>
    have hpos := pos_line hseek
    simp only [parseBulkItem, line_unread hseek, Parsed.complete_bind] at hfinds
    simp only [processBulkItem, hseek, hcur]
    rcases longLong_cases hseek with ⟨len, hlen, hlong⟩ | hundefined
    swap
    · exact .undefined (by simp [hfinds, hundefined])
    simp only [hlong, Parsed.complete_bind] at hfinds
    simp only [hlen, Outcome.returned_bind]
    by_cases hnil : len < 0
    · simp only [hnil, if_true] at hfinds ⊢
      obtain ⟨reply, rstack, hset, hmove, hdone⟩ := processed_value h _ hpos hfinds
      simpa only [createNilObject, hset, Outcome.returned_bind, hmove, Nat.add_assoc] using hdone
    simp only [hnil, if_false] at hfinds ⊢
    by_cases hrange : longMax < len + 2
    · exact .undefined (by simp [hfinds, hrange])
    simp only [hrange, if_false] at hfinds ⊢
    have hlength : (r.buf.drop (r.pos + n + 2)).length = r.buf.length - (r.pos + n + 2) :=
      List.length_drop
    by_cases hwhole : len.toNat + 2 ≤ (r.buf.drop (r.pos + n + 2)).length
    · have hfits : r.pos + (n + 2 + (len.toNat + 2)) ≤ r.buf.length := by omega
      have hbulk : ∀ more, bulk len.toNat (r.buf.drop (r.pos + n + 2) ++ more) = .complete
          ((r.unread.drop (n + 2)).take len.toNat)
          (r.buf.drop (r.pos + (n + 2 + (len.toNat + 2))) ++ more) := by
        intro more
        have hfound : bulk len.toNat (r.buf.drop (r.pos + n + 2)) = _ := if_pos hwhole
        rw [bulk_stable _ _ more (by simp [hfound]), hfound, Parsed.append_complete, List.drop_drop,
          RedisReader.unread, List.drop_drop]
        simp only [Nat.add_assoc]
      simp only [hbulk, Parsed.complete_bind] at hfinds
      obtain ⟨reply, rstack, hset, hmove, hdone⟩ := processed_value h _ hfits hfinds
      simp only [hfits, if_true]
      simpa only [createStringObject, hset, Outcome.returned_bind, hmove] using hdone
    · have hnot : ¬r.pos + (n + 2 + (len.toNat + 2)) ≤ r.buf.length := by omega
      simp only [hnot, if_false]
      exact .short h (by rw [hfinds, List.append_nil, bulk, if_neg hwhole]; rfl)

theorem length_tasks (frames : List Frame) (type : Option ReplyType) :
    (tasks frames type).length = frames.length + 1 := by
  have hidx := congrArg List.length (idx_tasks frames type)
  simpa using hidx

theorem toSize_toInt {n : Int} (h : 0 < toInt n) : toSize (toInt n) = (toInt n).toNat := by
  have hlt : toInt n < 2 ^ 64 := by
    have hbound : toInt n < (2 ^ 32 + 1) / 2 := Int.bmod_lt (by decide)
    omega
  rw [toSize, Int.emod_eq_of_lt h.le hlt]

/-- **An array is begun**, and its first element is the current item. -/
theorem reads_first (h : Reads r frames (some .array) finds) (hdepth : frames.length < maxDepth)
    {n : Int} (hn : 0 < toInt n) {pos : Nat} (hpos : pos ≤ r.buf.length)
    (hfinds : ∀ more, finds more =
      (parseArray (parseItem (maxDepth - (frames.length + 1))) n (r.buf.drop pos ++ more)).bind
        (resumeValue frames)) :
    ∃ reply, createArrayObject r (toInt n) = .returned reply ∧
      Reads { r with
          pos := pos
          reply := reply
          rstack := { idx := 0 } ::
            { type := some .array, elements := toInt n, idx := index frames } :: r.rstack.tail }
        (⟨[], (toInt n).toNat - 1⟩ :: frames) none finds := by
  obtain ⟨herr, hrstack, hreply, _, _, _⟩ := h
  have hsucc : (toInt n).toNat = (toInt n).toNat - 1 + 1 := by omega
  have htotal : ((⟨[], (toInt n).toNat - 1⟩ : Frame).total : Int) = toInt n := by
    simp only [Frame.total, List.length_nil]
    omega
  refine ⟨plug frames (.array (toSize (toInt n)) (List.replicate (toInt n).toNat .null)), ?_, ?_⟩
  · rw [createArrayObject, hrstack, hreply, setAt_plug]
  refine ⟨herr, ?_, ?_, hdepth, hpos, ?_⟩
  · simp [hrstack, tasks, arrayTasks, index, htotal]
  · have htoNat : (⟨[], (toInt n).toNat - 1⟩ : Frame).total = (toInt n).toNat := by omega
    have hnulls : List.replicate (toInt n).toNat RedisReply.null =
        [] ++ .null :: List.replicate ((toInt n).toNat - 1) .null := by
      rw [List.nil_append, ← List.replicate_succ, ← hsucc]
    rw [plug, Frame.array, htoNat, toSize_toInt hn, hnulls]
  · intro more
    rw [hfinds, parseArray, if_neg (not_le.mpr hn), Parsed.bind_assoc, resumeItem_first, ← hsucc]
    rfl

theorem processMultiBulkItem_spec (h : Reads r frames (some .array) finds) :
    Processed finds
      (processMultiBulkItem r { type := some .array, idx := index frames }) := by
  have hfinds : ∀ more, finds more =
      (parseMultiBulkItem (elementParser (maxDepth - frames.length)) (r.unread ++ more)).bind
        (resumeValue frames) := h.finds
  have hlength : r.rstack.length - 1 = frames.length := by rw [h.rstack, length_tasks]; rfl
  rw [processMultiBulkItem, hlength]
  by_cases hdeep : frames.length = 8
  · rw [if_pos hdeep]
    exact .error rfl (by rw [hfinds, hdeep]; rfl)
  have hdepth : frames.length < maxDepth := lt_of_le_of_ne h.depth hdeep
  have hparser : elementParser (maxDepth - frames.length) =
      some (parseItem (maxDepth - (frames.length + 1))) := by
    have hsucc : maxDepth - frames.length = maxDepth - (frames.length + 1) + 1 := by omega
    rw [hsucc]
    rfl
  rw [if_neg hdeep]
  simp only [hparser, parseMultiBulkItem] at hfinds
  cases hseek : seekNewline r.unread with
  | none =>
    rw [readLine, hseek]
    exact .short h (by rw [hfinds, line_short hseek]; rfl)
  | some l =>
    have hpos := pos_line hseek
    simp only [line_unread hseek, Parsed.complete_bind] at hfinds
    simp only [readLine, hseek, Option.map_some]
    rcases longLong_cases hseek with ⟨n, hn, hlong⟩ | hundefined
    swap
    · exact .undefined (by simp [hfinds, hundefined])
    simp only [hlong, Parsed.complete_bind] at hfinds
    simp only [hn, Outcome.returned_bind]
    by_cases hnil : n = -1
    · simp only [hnil, if_true] at hfinds ⊢
      obtain ⟨reply, rstack, hset, hmove, hdone⟩ := processed_value h _ hpos hfinds
      simpa only [createNilObject, hset, Outcome.returned_bind, hmove] using hdone
    simp only [hnil, if_false] at hfinds ⊢
    by_cases hnone : n ≤ 0
    · simp only [hnone, if_true] at hfinds
      obtain ⟨reply, rstack, hset, hmove, hdone⟩ := processed_value h _ hpos hfinds
      simpa only [createArrayObject, hset, Outcome.returned_bind, not_lt.mpr hnone, if_false, hmove]
        using hdone
    simp only [hnone, if_false] at hfinds
    by_cases hsize : toInt n ≤ 0
    · exact .undefined (by simp [hfinds, parseArray, hsize])
    obtain ⟨reply, hcreate, hreads⟩ := reads_first h hdepth (not_le.mp hsize) hpos hfinds
    simp only [hcreate, Outcome.returned_bind, not_le.mp hnone, if_true]
    exact .more hreads

/-- An item whose type was read. -/
theorem processTyped_spec (h : Reads r frames (some type) finds) :
    Processed finds (processTyped r { type := some type, idx := index frames }) := by
  cases type with
  | error => exact processLineItem_spec h rfl rfl (.inl rfl)
  | status => exact processLineItem_spec h rfl rfl (.inr (.inl rfl))
  | integer => exact processLineItem_spec h rfl rfl (.inr (.inr rfl))
  | string => exact processBulkItem_spec h rfl
  | array => exact processMultiBulkItem_spec h
  | nil => exact .undefined (h.finds [])

/-- **One item.** -/
theorem processItem_spec {type : Option ReplyType} (h : Reads r frames type finds) :
    Processed finds (processItem r) := by
  obtain ⟨herr, hrstack, hreply, hdepth, hpos, hfinds⟩ := h
  rw [processItem, hrstack]
  cases type with
  | some type => exact processTyped_spec ⟨herr, hrstack, hreply, hdepth, hpos, hfinds⟩
  | none =>
    simp only [tasks]
    cases hunread : r.unread with
    | nil => exact .short ⟨herr, hrstack, hreply, hdepth, hpos, hfinds⟩ (by rw [hfinds, hunread]; rfl)
    | cons byte text =>
      have hitem : ∀ more, finds more = (parseTagged (elementParser (maxDepth - frames.length))
          (byte :: (text ++ more))).bind (resumeValue frames) := by
        intro more
        rw [hfinds, hunread]
        rfl
      simp only [parseTagged] at hitem
      cases htype : replyType byte with
      | none =>
        simp only [htype] at hitem ⊢
        exact .error rfl (hitem [])
      | some type =>
        simp only [htype] at hitem ⊢
        have htext : r.buf.drop (r.pos + 1) = text := by
          rw [← List.drop_drop, ← RedisReader.unread, hunread, List.drop_one, List.tail_cons]
        have hlt : r.pos < r.buf.length := pos_lt_of_unread (by simp [hunread])
        apply processTyped_spec
        refine ⟨herr, rfl, hreply, hdepth, hlt, ?_⟩
        intro more
        rw [hitem, RedisReader.unread, htext]
        rfl

/-! ### The loop -/

/-- How the loop of `redisReaderGetReply` ends. -/
inductive Looped (finds : Str → Found RedisReply) : Outcome RedisReader → Prop
  | reply {r' : RedisReader} (h : HasRead r' finds) : Looped finds (.returned r')
  | short {r' : RedisReader} {frames : List Frame} {type : Option ReplyType}
    (h : Reads r' frames type finds) (hshort : finds [] = .incomplete) :
    Looped finds (.returned r')
  | error {r' : RedisReader} {e : RedisError} (herr : r'.err = some e)
    (hfinds : finds [] = .failed (.error e)) : Looped finds (.returned r')
  | undefined {x : Outcome RedisReader} (hfinds : finds [] = .failed .undefined) : Looped finds x

theorem processItems_nil (h : r.rstack = []) : processItems r = .returned r := by
  rw [processItems, if_pos h]

theorem processItems_ok {r' : RedisReader} (hne : r.rstack ≠ [])
    (h : processItem r = .returned (redisOk, r')) : processItems r = processItems r' := by
  rw [processItems, if_neg hne]
  split <;> simp_all

theorem processItems_err {r' : RedisReader} (hne : r.rstack ≠ [])
    (h : processItem r = .returned (redisErr, r')) : processItems r = .returned r' := by
  have herr : redisErr ≠ redisOk := by decide
  rw [processItems, if_neg hne]
  split <;> simp_all

/-- **The items of a reply**, as far as the text goes. -/
theorem processItems_spec {type : Option ReplyType} (h : Reads r frames type finds) :
    Looped finds (processItems r) := by
  induction hleft : r.buf.length - r.pos using Nat.strong_induction_on
    generalizing r frames type with
  | _ left ih =>
    have hne : r.rstack ≠ [] := by simp [h.rstack, tasks]
    have hspec := processItem_spec h
    generalize hitem : processItem r = ended at hspec
    cases hspec with
    | more hnext =>
      obtain ⟨hbuf, hpos, hlt⟩ := processItem_advances hitem
      rw [processItems_ok hne hitem]
      exact ih _ (by rw [hbuf]; omega) hnext rfl
    | reply hread =>
      rw [processItems_ok hne hitem, processItems_nil hread.rstack]
      exact .reply hread
    | short hshort hfinds =>
      rw [processItems_err hne hitem]
      exact .short hshort hfinds
    | error herr hfinds =>
      rw [processItems_err hne hitem]
      exact .error herr hfinds
    | undefined hfinds => exact .undefined hfinds

/-! ### Calls -/

/-- A call of the reader. -/
inductive Call where
  | feed (chunk : Str)
  | getReply
deriving DecidableEq

/-- What a call returns: its status, the reply or `NULL`, and the reader's error. -/
structure Returned where
  status : Int
  reply : RedisReply
  err : Option RedisError

/-- What calls return, one after another. -/
def session (r : RedisReader) : List Call → Outcome (List Returned)
  | [] => .returned []
  | .feed chunk :: calls => do
    let (status, r) := redisReaderFeed r chunk
    let returned ← session r calls
    .returned (⟨status, .null, r.err⟩ :: returned)
  | .getReply :: calls => do
    let (status, reply, r) ← redisReaderGetReply r
    let returned ← session r calls
    .returned (⟨status, reply, r.err⟩ :: returned)

/-- What a call returns when the reader has an error. -/
def failedCall : Failure → Outcome Returned
  | .error e => .returned ⟨redisErr, .null, some e⟩
  | .undefined => .undefined

/-- What a call that feeds the reader returns. -/
def fed : Option Failure → Outcome Returned
  | none => .returned ⟨redisOk, .null, none⟩
  | some e => failedCall e

/-- What a call for a reply returns. -/
def answered : Answer RedisReply Failure → Outcome Returned
  | .nothing => .returned ⟨redisOk, .null, none⟩
  | .item reply => .returned ⟨redisOk, reply, none⟩
  | .failed e => failedCall e

/-- The same of the reader that keeps everything it was fed, and reads it anew whenever
    it is asked for a reply. -/
def offlineSession (o : Offline Byte Failure) : List Call → Outcome (List Returned)
  | [] => .returned []
  | .feed chunk :: calls => do
    let answer ← fed o.failure
    let returned ← offlineSession (o.feed chunk) calls
    .returned (answer :: returned)
  | .getReply :: calls => do
    let answer ← answered (o.next replies).1
    let returned ← offlineSession (o.next replies).2 calls
    .returned (answer :: returned)

/-- The reader stands where the offline one does. -/
inductive Agrees (o : Offline Byte Failure) (r : RedisReader) : Prop
  /-- Between two replies. -/
  | idle (herr : r.err = none) (hrstack : r.rstack = []) (hreply : r.reply = .null)
    (hpos : r.pos ≤ r.buf.length)
    (h : Follows replies o fun more => replies.parse (r.unread ++ more))
  /-- In the middle of one. -/
  | busy {frames : List Frame} {type : Option ReplyType} {finds : Str → Found RedisReply}
    (hreads : Reads r frames type finds) (hempty : r.unread = [] → finds [] = .incomplete)
    (h : Follows replies o finds)
  /-- After an error. -/
  | failed {e : RedisError} (herr : r.err = some e) (h : o.failure = some (.error e))

variable {o : Offline Byte Failure}

theorem agrees_new : Agrees {} redisReaderCreate :=
  .idle rfl rfl rfl (le_refl _) follows_new

/-- More text. -/
theorem Agrees.feed (h : Agrees o r) (herr : r.err = none) (chunk : Str) :
    Agrees (o.feed chunk) { r with buf := r.buf ++ chunk } := by
  have hunread : r.pos ≤ r.buf.length →
      ({ r with buf := r.buf ++ chunk } : RedisReader).unread = r.unread ++ chunk :=
    fun hle => List.drop_append_of_le_length hle
  cases h with
  | idle _ hrstack hreply hle h =>
    refine .idle herr hrstack hreply (by simp only [List.length_append]; omega) ?_
    simp only [hunread hle, List.append_assoc]
    exact h.feed chunk
  | busy hreads hempty h =>
    refine .busy ⟨herr, hreads.rstack, hreads.reply, hreads.depth, ?_, ?_⟩ ?_ (h.feed chunk)
    · simp only [List.length_append]
      have hle := hreads.pos
      omega
    · intro more
      rw [hunread hreads.pos, List.append_assoc, hreads.finds]
    · intro hnil
      rw [hunread hreads.pos, List.append_eq_nil_iff] at hnil
      rw [hnil.2]
      exact hempty hnil.1
  | failed hfailed _ => rw [herr] at hfailed; cases hfailed

theorem unread_compact (r : RedisReader) : r.compact.unread = r.unread := by
  rw [RedisReader.compact]
  split_ifs
  · exact List.drop_zero
  · rfl

theorem Reads.compact {type : Option ReplyType} (h : Reads r frames type finds) :
    Reads r.compact frames type finds := by
  obtain ⟨herr, hrstack, hreply, hdepth, hpos, hfinds⟩ := h
  simp only [← unread_compact r] at hfinds
  rw [RedisReader.compact] at hfinds ⊢
  split_ifs at hfinds ⊢
  · exact ⟨herr, hrstack, hreply, hdepth, Nat.zero_le _, hfinds⟩
  · exact ⟨herr, hrstack, hreply, hdepth, hpos, hfinds⟩

theorem HasRead.compact (h : HasRead r finds) :
    r.compact.err = none ∧ r.compact.rstack = [] ∧ r.compact.reply = r.reply ∧
      r.compact.pos ≤ r.compact.buf.length := by
  rw [RedisReader.compact]
  split_ifs
  · exact ⟨h.err, h.rstack, rfl, Nat.zero_le _⟩
  · exact ⟨h.err, h.rstack, rfl, h.pos⟩

/-- **A call for a reply**, when there is text. -/
theorem getReply_reads {type : Option ReplyType} (hr : r.err = none) (hbuf : r.buf.length ≠ 0)
    (hstart : Reads r.start frames type finds) (h : Follows replies o finds) :
    (o.next replies).1 = .failed .undefined ∨
      ∃ status reply r', redisReaderGetReply r = .returned (status, reply, r') ∧
        Agrees (o.next replies).2 r' ∧
        answered (o.next replies).1 = .returned ⟨status, reply, r'.err⟩ := by
  have hget : redisReaderGetReply r =
      (processItems r.start >>= fun r => .returned (emitReply r)) := by
    simp [redisReaderGetReply, hr, hbuf]
  have hloop := processItems_spec hstart
  rw [hget]
  generalize processItems r.start = ended at hloop
  cases hloop with
  | @reply r' hread =>
    obtain ⟨hnext, hfollows⟩ := h.item hread.finds
    obtain ⟨herr, hrstack, hreply, hpos⟩ := hread.compact
    have hemit : emitReply r' = (redisOk, r'.reply, { r'.compact with reply := .null }) := by
      simp [emitReply, hread.err, hrstack, hreply]
    rw [← unread_compact r'] at hfollows
    rw [hnext, Outcome.returned_bind, hemit]
    refine .inr ⟨_, _, _, rfl, .idle herr hrstack rfl hpos hfollows, ?_⟩
    simp [answered, herr]
  | @short r' frames' type' hreads hshort =>
    have hcompact := hreads.compact
    have hemit : emitReply r' = (redisOk, .null, r'.compact) := by
      simp [emitReply, hreads.err, hcompact.rstack, tasks]
    rw [h.nothing hshort, Outcome.returned_bind, hemit]
    refine .inr ⟨_, _, _, rfl, .busy hcompact (fun _ => hshort) h, ?_⟩
    simp [answered, hcompact.err]
  | @error r' e herr hfinds =>
    have hemit : emitReply r' = (redisErr, .null, r') := by simp [emitReply, herr]
    rw [h.failed hfinds, Outcome.returned_bind, hemit]
    refine .inr ⟨_, _, _, rfl, .failed herr rfl, ?_⟩
    simp [answered, failedCall, herr]
  | undefined hfinds => exact .inl (by rw [h.failed hfinds])

/-- **A call for a reply** does what the offline reader does, unless a number is out of
    range. -/
theorem getReply_agrees (h : Agrees o r) :
    (o.next replies).1 = .failed .undefined ∨
      ∃ status reply r', redisReaderGetReply r = .returned (status, reply, r') ∧
        Agrees (o.next replies).2 r' ∧
        answered (o.next replies).1 = .returned ⟨status, reply, r'.err⟩ := by
  have hnone : r.err = none → r.buf.length = 0 → ∀ finds : Str → Found RedisReply,
      Follows replies o finds → finds [] = .incomplete → 
      ∃ status reply r', redisReaderGetReply r = .returned (status, reply, r') ∧
        Agrees (o.next replies).2 r' ∧
        answered (o.next replies).1 = .returned ⟨status, reply, r'.err⟩ := by
    intro herr hbuf finds hfollows hfinds
    have hget : redisReaderGetReply r = .returned (redisOk, .null, r) := by
      simp [redisReaderGetReply, herr, hbuf]
    rw [hfollows.nothing hfinds]
    exact ⟨_, _, _, hget, h, by rw [herr]; rfl⟩
  cases h with
  | idle herr hrstack hreply hpos hfollows =>
    by_cases hbuf : r.buf.length = 0
    · have hunread : r.unread = [] := by
        rw [RedisReader.unread, List.length_eq_zero_iff.mp hbuf, List.drop_nil]
      exact .inr (hnone herr hbuf _ hfollows (by rw [hunread]; rfl))
    · have hstart : Reads r.start [] none fun more => replies.parse (r.unread ++ more) := by
        rw [RedisReader.start, if_pos hrstack]
        exact ⟨herr, rfl, hreply, Nat.zero_le _, hpos, fun more => (Parsed.bind_complete _).symm⟩
      exact getReply_reads herr hbuf hstart hfollows
  | busy hreads hempty hfollows =>
    by_cases hbuf : r.buf.length = 0
    · have hunread : r.unread = [] := by
        rw [RedisReader.unread, List.length_eq_zero_iff.mp hbuf, List.drop_nil]
      exact .inr (hnone hreads.err hbuf _ hfollows (hempty hunread))
    · have hstart : r.start = r := if_neg (by simp [hreads.rstack, tasks])
      exact getReply_reads hreads.err hbuf (by rw [hstart]; exact hreads) hfollows
  | failed herr hfailure =>
    have hget : redisReaderGetReply r = .returned (redisErr, .null, r) := by
      simp [redisReaderGetReply, herr]
    rw [next_of_failure hfailure]
    exact .inr ⟨_, _, _, hget, .failed herr hfailure, by rw [herr]; rfl⟩

theorem Agrees.err (h : Agrees o r) :
    r.err = none ∧ o.failure = none ∨ ∃ e, r.err = some e ∧ o.failure = some (.error e) := by
  cases h with
  | idle herr _ _ _ h => exact .inl ⟨herr, h.1⟩
  | busy hreads _ h => exact .inl ⟨hreads.err, h.1⟩
  | @failed e herr h => exact .inr ⟨e, herr, h⟩

/-- A call that feeds the reader. -/
theorem feed_agrees (h : Agrees o r) (chunk : Str) :
    Agrees (o.feed chunk) (redisReaderFeed r chunk).2 ∧
      fed o.failure = .returned
        ⟨(redisReaderFeed r chunk).1, .null, (redisReaderFeed r chunk).2.err⟩ := by
  rcases h.err with ⟨herr, hfailure⟩ | ⟨e, herr, hfailure⟩
  · have hfeed : redisReaderFeed r chunk = (redisOk, { r with buf := r.buf ++ chunk }) := by
      simp [redisReaderFeed, herr]
    rw [hfeed, hfailure]
    exact ⟨h.feed herr chunk, by simp [fed, herr]⟩
  · have hfeed : redisReaderFeed r chunk = (redisErr, r) := by simp [redisReaderFeed, herr]
    have hoffline : o.feed chunk = o := by simp [Offline.feed, hfailure]
    rw [hfeed, hoffline, hfailure]
    exact ⟨h, by simp [fed, failedCall, herr]⟩

/-- The calls that are still to come. -/
theorem session_of_agrees {calls : List Call} {returned : List Returned} (h : Agrees o r)
    (hoffline : offlineSession o calls = .returned returned) :
    session r calls = .returned returned := by
  induction calls generalizing o r returned with
  | nil => exact hoffline
  | cons call calls ih =>
    cases call with
    | feed chunk =>
      rw [offlineSession] at hoffline
      obtain ⟨answer, hanswer, hoffline⟩ := Outcome.bind_eq_returned.mp hoffline
      obtain ⟨rest, hrest, hoffline⟩ := Outcome.bind_eq_returned.mp hoffline
      obtain ⟨hagrees, hfed⟩ := feed_agrees h chunk
      rw [hfed] at hanswer
      cases hanswer
      rw [session]
      simp only [ih hagrees hrest, Outcome.returned_bind]
      exact hoffline
    | getReply =>
      rw [offlineSession] at hoffline
      obtain ⟨answer, hanswer, hoffline⟩ := Outcome.bind_eq_returned.mp hoffline
      obtain ⟨rest, hrest, hoffline⟩ := Outcome.bind_eq_returned.mp hoffline
      rcases getReply_agrees h with hundefined | ⟨status, reply, r', hget, hagrees, hreturned⟩
      · rw [hundefined] at hanswer
        cases hanswer
      · rw [session, hget, Outcome.returned_bind]
        simp only [ih hagrees hrest, Outcome.returned_bind]
        rw [hreturned] at hanswer
        cases hanswer
        exact hoffline

/-- **The reader of hiredis answers every call as the offline one does**, in whatever
    pieces the text is fed and whenever replies are asked for: with the next reply of
    all the text fed, with none when the text has no other, and with the same error from
    the first one on. -/
theorem session_eq {calls : List Call} {returned : List Returned}
    (h : offlineSession {} calls = .returned returned) :
    session redisReaderCreate calls = .returned returned :=
  session_of_agrees agrees_new h

/-- A line break in two pieces, and a byte that is no type. -/
theorem session_eq_twoPieces :
    session redisReaderCreate
        [.feed (str "+OK\r"), .getReply, .feed (str "\n@"), .getReply, .getReply, .feed (str "+")] =
      .returned [⟨redisOk, .null, none⟩, ⟨redisOk, .null, none⟩, ⟨redisOk, .null, none⟩,
        ⟨redisOk, .string .status (str "OK"), none⟩,
        ⟨redisErr, .null, some ⟨.protocol, protocolByte 64⟩⟩,
        ⟨redisErr, .null, some ⟨.protocol, protocolByte 64⟩⟩] := by
  apply session_eq
  have hpiece : replies.readAll (str "+OK\r") = ⟨[], none⟩ := by
    rw [Parser.readAll_eq]
    rfl
  have htext : replies.parse (str "+OK\r" ++ str "\n@") =
      .complete (.string .status (str "OK")) (str "@") := by rfl
  have hat : replies.parse (str "@") = .failed (.error ⟨.protocol, protocolByte 64⟩) := by rfl
  have hwhole : replies.readAll (str "+OK\r" ++ str "\n@") =
      ⟨[.string .status (str "OK")], some (.error ⟨.protocol, protocolByte 64⟩)⟩ := by
    rw [Parser.readAll_eq, htext, Parser.readOn, Parser.readAll_eq, hat]
    rfl
  simp [offlineSession, Offline.feed, Offline.next, hpiece, hwhole, fed, answered, failedCall]

end NvrecYcsb.ReaderRefinement
