/-
  NvrecYcsb/ReplyRoundTrip.lean
  =============================
  **Replies come back from their text**, in whatever pieces it comes.

  `encode` is the text of a reply in the protocol of Redis.  A command is sent as an
  array of strings (`multiBulk_eq`), so that what is said of replies holds of commands
  as well.

  * `parseItem_encode`: the grammar finds a reply in its text, whatever follows;
  * `session_of_replies`: a reader that is fed the text of replies, or the beginning of
    it, hands out these replies and no others, and reports no error;
  * `session_polled`: it hands out all of them when it is asked often enough.
-/
import NvrecYcsb.ReaderRefinement

namespace NvrecYcsb.ReplyRoundTrip

open CppRuntime Hiredis HiredisReader RedisReplies IncrementalParsing ReaderRefinement

/-! ### The text of a reply -/

/-- A number with its sign. -/
def intToString (n : Int) : Str :=
  if n < 0 then str "-" ++ stdToString n.natAbs else stdToString n.natAbs

mutual

/-- The text of a reply. -/
def encode : RedisReply → Str
  | .null => []
  | .string .status s => str "+" ++ s ++ crlf
  | .string .error s => str "-" ++ s ++ crlf
  | .string _ s => str "$" ++ stdToString s.length ++ crlf ++ s ++ crlf
  | .integer n => str ":" ++ intToString n ++ crlf
  | .nil => str "$-1" ++ crlf
  | .array _ vs => str "*" ++ stdToString vs.length ++ crlf ++ encodeAll vs

def encodeAll : List RedisReply → Str
  | [] => []
  | v :: vs => encode v ++ encodeAll vs

end

/-- A reply that is not an array and has a text: a line has no line break, and the
    numbers fit their types. -/
def SendableItem : RedisReply → Prop
  | .string .status s => seekNewline s = none
  | .string .error s => seekNewline s = none
  | .string .string s => s.length + 2 ≤ longMax
  | .integer n => -longMax ≤ n ∧ n ≤ longMax
  | .nil => True
  | _ => False

/-- A reply that has a text, with so many arrays inside of each other at most. -/
def Sendable : Nat → RedisReply → Prop
  | depth + 1, .array n vs => n = vs.length ∧ n < 2 ^ 31 ∧ ∀ v ∈ vs, Sendable depth v
  | _, v => SendableItem v

instance : DecidablePred SendableItem
  | .string .status s => inferInstanceAs (Decidable (seekNewline s = none))
  | .string .error s => inferInstanceAs (Decidable (seekNewline s = none))
  | .string .string s => inferInstanceAs (Decidable ((s.length : Int) + 2 ≤ longMax))
  | .integer n => inferInstanceAs (Decidable (-longMax ≤ n ∧ n ≤ longMax))
  | .nil => isTrue trivial
  | .null | .array _ _ | .string .array _ | .string .integer _ | .string .nil _ => isFalse id

instance decidableSendable : (depth : Nat) → DecidablePred (Sendable depth)
  | 0, v => inferInstanceAs (Decidable (SendableItem v))
  | depth + 1, .array n vs =>
    have := decidableSendable depth
    inferInstanceAs (Decidable (n = vs.length ∧ n < 2 ^ 31 ∧ ∀ v ∈ vs, Sendable depth v))
  | _ + 1, .null => inferInstanceAs (Decidable (SendableItem .null))
  | _ + 1, .string type s => inferInstanceAs (Decidable (SendableItem (.string type s)))
  | _ + 1, .integer n => inferInstanceAs (Decidable (SendableItem (.integer n)))
  | _ + 1, .nil => inferInstanceAs (Decidable (SendableItem .nil))

/-! ### Lines and numbers -/

theorem seekNewline_line {s : Str} (h : seekNewline s = none) (rest : Str) :
    seekNewline (s ++ crlf ++ rest) = some s.length := by
  induction s using seekNewline.induct with
  | case1 => rfl
  | case2 => cases h
  | case3 c s hnot ih =>
    rw [seekNewline] at h
    · have hline := ih (Option.map_eq_none_iff.mp h)
      rw [List.cons_append, List.cons_append, seekNewline]
      · rw [hline]
        rfl
      · rintro text rfl htext
        cases s with
        | nil => cases htext
        | cons d s =>
          simp only [List.cons_append, List.cons.injEq] at htext
          exact hnot s rfl (by rw [htext.1])
    · exact hnot

theorem seekNewline_none {s : Str} (h : 13 ∉ s) : seekNewline s = none := by
  induction s using seekNewline.induct with
  | case1 => rfl
  | case2 => simp at h
  | case3 c s hnot ih =>
    rw [seekNewline]
    · rw [ih fun hmem => h (List.mem_cons_of_mem c hmem)]
      rfl
    · exact hnot

/-- A line that is sent is the line that is read. -/
theorem line_crlf {s : Str} (h : seekNewline s = none) (rest : Str) :
    line (s ++ (crlf ++ rest)) = .complete s rest := by
  rw [← List.append_assoc, line_eq (seekNewline_line h rest)]
  simp [crlf]

theorem le_foldl_digits (ds : List Byte) (v : Nat) :
    v ≤ ds.foldl (fun n b => 10 * n + (b.toNat - 48)) v := by
  induction ds generalizing v with
  | nil => exact le_refl v
  | cons c ds ih =>
    have hle := ih (10 * v + (c.toNat - 48))
    rw [List.foldl_cons]
    omega

/-- Digits are read as `strtoul` reads them, within the range. -/
theorem readDigits_digits {ds : List Byte} (hds : ∀ b ∈ ds, isDigit b = true) (v : Nat)
    (hmax : ((ds.foldl (fun n b => 10 * n + (b.toNat - 48)) v : Nat) : Int) ≤ longMax) :
    readDigits (ds ++ [13]) v =
      .returned (some (ds.foldl (fun n b => 10 * n + (b.toNat - 48)) v : Nat)) := by
  induction ds generalizing v with
  | nil => simp [readDigits]
  | cons c ds ih =>
    have hc := hds c List.mem_cons_self
    have hcr : c ≠ 13 := by
      rintro rfl
      cases hc
    have hlo : 48 ≤ c.toNat := by
      simp only [isDigit, Bool.and_eq_true, decide_eq_true_eq, UInt8.le_iff_toNat_le] at hc
      exact hc.1
    have hnext : (v : Int) * 10 + ((c.toNat : Int) - 48) = (10 * v + (c.toNat - 48) : Nat) := by
      omega
    have hle := le_foldl_digits ds (10 * v + (c.toNat - 48))
    rw [List.foldl_cons] at hmax ⊢
    rw [List.cons_append, readDigits, if_neg hcr, if_pos hc]
    simp only [hnext]
    rw [if_pos (by omega)]
    exact ih (fun b hb => hds b (List.mem_cons_of_mem c hb)) _ hmax

theorem readDigits_stdToString {n : Nat} (h : (n : Int) ≤ longMax) :
    readDigits (stdToString n ++ [13]) 0 = .returned (some (n : Int)) := by
  have hvalue : (stdToString n).foldl (fun n b => 10 * n + (b.toNat - 48)) 0 = n :=
    digitsValue_stdToString n
  have hread := readDigits_digits (fun b hb => isDigit_of_mem_stdToString hb) 0
    (by rw [hvalue]; exact h)
  rw [hvalue] at hread
  exact hread

theorem readLongLong_unsigned {c : Byte} {s : Str} (hminus : c ≠ 45) (hplus : c ≠ 43) :
    readLongLong (c :: s) = readDigits (c :: s) 0 >>= fun v => .returned (signed 1 v) := by
  rw [readLongLong.eq_def]
  split
  · rename_i hs
    exact absurd (List.cons.inj hs).1 hminus
  · rename_i hs
    exact absurd (List.cons.inj hs).1 hplus
  · rfl

/-- **A number is read as it was printed.** -/
theorem readLongLong_intToString {n : Int} (hlo : -longMax ≤ n) (hhi : n ≤ longMax) :
    readLongLong (intToString n ++ [13]) = .returned n := by
  have hread := readDigits_stdToString (show (n.natAbs : Int) ≤ longMax by omega)
  have hminus : str "-" = [45] := by decide +kernel
  by_cases hneg : n < 0
  · rw [intToString, if_pos hneg, hminus, List.append_assoc, List.singleton_append, readLongLong,
      hread, Outcome.returned_bind, signed]
    congr 1
    omega
  · have hdigits : ∀ b ∈ stdToString n.natAbs, isDigit b = true :=
      fun b hb => isDigit_of_mem_stdToString hb
    rw [intToString, if_neg hneg]
    cases hprinted : stdToString n.natAbs with
    | nil => exact absurd hprinted (stdToString_ne_nil _)
    | cons c ds =>
      rw [hprinted] at hdigits hread
      have hc := hdigits c List.mem_cons_self
      have hcminus : c ≠ 45 := by
        rintro rfl
        cases hc
      have hcplus : c ≠ 43 := by
        rintro rfl
        cases hc
      rw [List.cons_append] at hread ⊢
      rw [readLongLong_unsigned hcminus hcplus, hread, Outcome.returned_bind, signed]
      congr 1
      omega

theorem readLongLong_stdToString {n : Nat} (h : (n : Int) ≤ longMax) :
    readLongLong (stdToString n ++ [13]) = .returned (n : Int) := by
  have hlong := readLongLong_intToString (show -longMax ≤ (n : Int) by unfold longMax; omega) h
  rwa [intToString, if_neg (by omega), Int.natAbs_natCast] at hlong

/-! ### Items -/

theorem longLong_stdToString {n : Nat} (h : (n : Int) ≤ longMax) (rest : Str) :
    longLong (stdToString n) rest = .complete (n : Int) rest := by
  rw [longLong, readLongLong_stdToString h]

theorem line_stdToString (n : Nat) (rest : Str) :
    line (stdToString n ++ (crlf ++ rest)) = .complete (stdToString n) rest := by
  apply line_crlf
  apply seekNewline_none
  intro hmem
  have hdigit := isDigit_of_mem_stdToString hmem
  exact absurd hdigit (by decide)

theorem line_intToString (n : Int) (rest : Str) :
    line (intToString n ++ (crlf ++ rest)) = .complete (intToString n) rest := by
  have hminus : str "-" = [45] := by decide +kernel
  apply line_crlf
  apply seekNewline_none
  intro hmem
  have hdigit : (13 : Byte) ∈ stdToString n.natAbs := by
    rw [intToString] at hmem
    split_ifs at hmem
    · simpa [hminus] using hmem
    · exact hmem
  exact absurd (isDigit_of_mem_stdToString hdigit) (by decide)

/-- An item begins with the byte of its type. -/
theorem parseItem_cons {byte : Byte} {type : ReplyType} (h : replyType byte = some type)
    (depth : Nat) (text : Str) :
    parseItem depth (byte :: text) = parseTyped (elementParser depth) type text := by
  simp [parseItem, parseTagged, h]

theorem parseLineItem_line {type : ReplyType} (htype : type ≠ .integer) {s : Str}
    (h : seekNewline s = none) (rest : Str) :
    parseLineItem type (s ++ (crlf ++ rest)) = .complete (.string type s) rest := by
  simp [parseLineItem, line_crlf h, htype]

theorem parseLineItem_integer {n : Int} (hlo : -longMax ≤ n) (hhi : n ≤ longMax) (rest : Str) :
    parseLineItem .integer (intToString n ++ (crlf ++ rest)) = .complete (.integer n) rest := by
  simp [parseLineItem, line_intToString, longLong, readLongLong_intToString hlo hhi]

theorem bulk_crlf (s rest : Str) : bulk s.length (s ++ (crlf ++ rest)) = .complete s rest := by
  have hlen : s.length + 2 ≤ (s ++ (crlf ++ rest)).length := by
    simp only [List.length_append, crlf, List.length_cons, List.length_nil]
    omega
  rw [bulk, if_pos hlen]
  simp [crlf]

theorem parseBulkItem_string {s : Str} (h : (s.length : Int) + 2 ≤ longMax) (rest : Str) :
    parseBulkItem (stdToString s.length ++ (crlf ++ (s ++ (crlf ++ rest)))) =
      .complete (.string .string s) rest := by
  have hnot : ¬(s.length : Int) < 0 := by omega
  have hrange : ¬longMax < (s.length : Int) + 2 := by omega
  rw [parseBulkItem, line_stdToString, Parsed.complete_bind, longLong_stdToString (by omega),
    Parsed.complete_bind, if_neg hnot, if_neg hrange, Int.toNat_natCast, bulk_crlf]
  rfl

theorem parseBulkItem_nil (rest : Str) : parseBulkItem (str "-1" ++ (crlf ++ rest)) =
    .complete .nil rest := by
  have hline : seekNewline (str "-1") = none := by decide +kernel
  have hminus : readLongLong (str "-1" ++ [13]) = .returned (-1) := by decide +kernel
  simp [parseBulkItem, line_crlf hline, longLong, hminus]

theorem parseElements_encodeAll {item : Str → Found RedisReply} {vs : List RedisReply}
    (h : ∀ v ∈ vs, ∀ rest, item (encode v ++ rest) = .complete v rest) (rest : Str) :
    parseElements item vs.length (encodeAll vs ++ rest) = .complete vs rest := by
  induction vs with
  | nil => rfl
  | cons v vs ih =>
    have hv := h v List.mem_cons_self
    have hvs := ih fun w hw => h w (List.mem_cons_of_mem v hw)
    rw [List.length_cons, encodeAll, List.append_assoc, parseElements, hv, Parsed.complete_bind, hvs]
    rfl

theorem toInt_natCast {n : Nat} (h : n < 2 ^ 31) : toInt (n : Int) = n := by
  apply Int.bmod_eq_of_le <;> omega

theorem parseMultiBulkItem_array {item : Str → Found RedisReply} {vs : List RedisReply}
    (hlen : vs.length < 2 ^ 31)
    (h : ∀ v ∈ vs, ∀ rest, item (encode v ++ rest) = .complete v rest) (rest : Str) :
    parseMultiBulkItem (some item) (stdToString vs.length ++ (crlf ++ (encodeAll vs ++ rest))) =
      .complete (.array vs.length vs) rest := by
  have hmax : (vs.length : Int) ≤ longMax := by
    unfold longMax
    omega
  have hminus : ¬(vs.length : Int) = -1 := by omega
  simp only [parseMultiBulkItem, line_stdToString, Parsed.complete_bind, longLong_stdToString hmax,
    if_neg hminus]
  by_cases hempty : vs = []
  · subst hempty
    rfl
  · have hpos : 0 < vs.length := List.length_pos_of_ne_nil hempty
    rw [if_neg (by omega), parseArray, toInt_natCast hlen, if_neg (by omega), Int.toNat_natCast,
      parseElements_encodeAll h]
    rfl

/-- A reply that is not an array. -/
theorem parseItem_simple {depth : Nat} {v : RedisReply} (h : SendableItem v) (rest : Str) :
    parseItem depth (encode v ++ rest) = .complete v rest := by
  have hplus : str "+" = [43] := by decide +kernel
  have hminus : str "-" = [45] := by decide +kernel
  have hcolon : str ":" = [58] := by decide +kernel
  have hdollar : str "$" = [36] := by decide +kernel
  have hnil : str "$-1" = 36 :: str "-1" := by decide +kernel
  cases v with
  | null => exact h.elim
  | string type s =>
    cases type with
    | status =>
      simp only [encode, hplus, List.append_assoc, List.cons_append, List.nil_append]
      rw [parseItem_cons (show replyType 43 = some .status by decide)]
      exact parseLineItem_line (by decide) h rest
    | error =>
      simp only [encode, hminus, List.append_assoc, List.cons_append, List.nil_append]
      rw [parseItem_cons (show replyType 45 = some .error by decide)]
      exact parseLineItem_line (by decide) h rest
    | string =>
      simp only [encode, hdollar, List.append_assoc, List.cons_append, List.nil_append]
      rw [parseItem_cons (show replyType 36 = some .string by decide)]
      exact parseBulkItem_string h rest
    | array => exact h.elim
    | integer => exact h.elim
    | nil => exact h.elim
  | integer n =>
    simp only [encode, hcolon, List.append_assoc, List.cons_append, List.nil_append]
    rw [parseItem_cons (show replyType 58 = some .integer by decide)]
    exact parseLineItem_integer h.1 h.2 rest
  | nil =>
    simp only [encode, hnil, List.append_assoc, List.cons_append]
    rw [parseItem_cons (show replyType 36 = some .string by decide)]
    exact parseBulkItem_nil rest
  | array n vs => exact h.elim

/-- **A reply comes back from its text**, whatever follows. -/
theorem parseItem_encode {depth : Nat} {v : RedisReply} (h : Sendable depth v) (rest : Str) :
    parseItem depth (encode v ++ rest) = .complete v rest := by
  induction depth generalizing v rest with
  | zero => exact parseItem_simple h rest
  | succ depth ih =>
    have hstar : str "*" = [42] := by decide +kernel
    cases v with
    | array n vs =>
      obtain ⟨rfl, hlen, hvs⟩ := h
      simp only [encode, hstar, List.append_assoc, List.cons_append, List.nil_append]
      rw [parseItem_cons (show replyType 42 = some .array by decide)]
      exact parseMultiBulkItem_array hlen (fun v hv rest => ih (hvs v hv) rest) rest
    | null => exact parseItem_simple h rest
    | string type s => exact parseItem_simple h rest
    | integer n => exact parseItem_simple h rest
    | nil => exact parseItem_simple h rest

/-- Every reply comes back from the text of all of them. -/
theorem readAll_encodeAll {vs : List RedisReply} (h : ∀ v ∈ vs, Sendable maxDepth v) :
    replies.readAll (encodeAll vs) = ⟨vs, none⟩ := by
  induction vs with
  | nil =>
    rw [Parser.readAll_eq]
    rfl
  | cons v vs ih =>
    have hv : replies.parse (encode v ++ encodeAll vs) = .complete v (encodeAll vs) :=
      parseItem_encode (h v List.mem_cons_self) _
    have hvs := ih fun w hw => h w (List.mem_cons_of_mem v hw)
    rw [Parser.readAll_eq, encodeAll, hv, Parser.readOn, hvs]
    rfl

/-- A command is sent as an array of strings. -/
theorem multiBulk_eq (argv : List Str) :
    multiBulk argv = encode (.array argv.length (argv.map (.string .string))) := by
  have hargs : ∀ args : List Str,
      (args.flatMap fun arg => str "$" ++ stdToString arg.length ++ crlf ++ arg ++ crlf) =
        encodeAll (args.map (.string .string)) := by
    intro args
    induction args with
    | nil => rfl
    | cons arg args ih => simp only [List.flatMap_cons, List.map_cons, encodeAll, encode, ih]
  rw [multiBulk, hargs, encode, List.length_map]

/-! ### Sessions -/

/-- What the calls feed the reader. -/
def fedText : List Call → Str
  | [] => []
  | .feed chunk :: calls => chunk ++ fedText calls
  | .getReply :: calls => fedText calls

/-- The replies among what calls return. -/
def handedOut : List Returned → List RedisReply
  | [] => []
  | x :: returned =>
    match x.reply with
    | .null => handedOut returned
    | v => v :: handedOut returned

/-- A call that went well. -/
def WentWell (x : Returned) : Prop := x.status = redisOk ∧ x.err = none

variable {vs : List RedisReply} {o : Offline Byte Failure}

theorem handedOut_cons {v : RedisReply} (h : Sendable maxDepth v) (status : Int)
    (err : Option RedisError) (returned : List Returned) :
    handedOut (⟨status, v, err⟩ :: returned) = v :: handedOut returned := by
  cases v with
  | null => exact h.elim
  | string type s => rfl
  | integer n => rfl
  | nil => rfl
  | array n vs => rfl

/-- The next item of a text of replies, or of its beginning. -/
theorem next_of_replies (hvs : ∀ v ∈ vs, Sendable maxDepth v) (hfailure : o.failure = none)
    (htext : o.text <+: encodeAll vs) :
    (o.next replies = (.nothing, o) ∧ (o.text = encodeAll vs → vs.drop o.taken = [])) ∨
      ∃ v, o.next replies = (.item v, { o with taken := o.taken + 1 }) ∧
        vs.drop o.taken = v :: vs.drop (o.taken + 1) := by
  have hwhole := readAll_encodeAll hvs
  obtain ⟨hnone, hitems⟩ := replies.prefix_readAll htext (by rw [hwhole])
  rw [hwhole] at hitems
  simp only [Offline.next, hfailure, hnone]
  cases hitem : (replies.readAll o.text).items[o.taken]? with
  | none =>
    refine .inl ⟨rfl, ?_⟩
    intro hall
    rw [hall, hwhole] at hitem
    exact List.drop_eq_nil_of_le (List.getElem?_eq_none_iff.mp hitem)
  | some v =>
    have hv : vs[o.taken]? = some v := by
      obtain ⟨hlt, _⟩ := List.getElem?_eq_some_iff.mp hitem
      obtain ⟨more, hmore⟩ := hitems
      have hall : (replies.readAll o.text).items ++ more = vs := hmore
      rw [← hall, List.getElem?_append_left hlt, hitem]
    obtain ⟨hlt, hget⟩ := List.getElem?_eq_some_iff.mp hv
    exact .inr ⟨v, rfl, by rw [← hget, List.drop_eq_getElem_cons hlt]⟩

/-- **Calls that feed the text of replies**, up to some point of it: what they return,
    and where the offline reader is after them. -/
theorem offline_of_replies (hvs : ∀ v ∈ vs, Sendable maxDepth v) {calls : List Call}
    (hfailure : o.failure = none) (hfed : o.text ++ fedText calls <+: encodeAll vs) :
    ∃ returned o', (∀ x ∈ returned, WentWell x) ∧ o'.failure = none ∧
      o'.text = o.text ++ fedText calls ∧
      vs.drop o.taken = handedOut returned ++ vs.drop o'.taken ∧
      ∀ more tail, offlineSession o' more = .returned tail →
        offlineSession o (calls ++ more) = .returned (returned ++ tail) := by
  induction calls generalizing o with
  | nil => exact ⟨[], o, by simp, hfailure, by simp [fedText], rfl, fun more tail h => h⟩
  | cons call calls ih =>
    cases call with
    | feed chunk =>
      have hfeed : o.feed chunk = { o with text := o.text ++ chunk } := by
        simp [Offline.feed, hfailure]
      have hrest : ({ o with text := o.text ++ chunk } : Offline Byte Failure).text ++
          fedText calls <+: encodeAll vs := by
        rw [List.append_assoc]
        exact hfed
      obtain ⟨returned, o', hok, hnone, htext, hdrop, hsession⟩ :=
        @ih { o with text := o.text ++ chunk } hfailure hrest
      refine ⟨⟨redisOk, .null, none⟩ :: returned, o', ?_, hnone, ?_, hdrop, ?_⟩
      · simpa [WentWell] using hok
      · rw [htext, List.append_assoc]
        rfl
      · intro more tail htail
        rw [List.cons_append, offlineSession, hfailure, hfeed, fed, Outcome.returned_bind,
          hsession more tail htail]
        rfl
    | getReply =>
      have htext : o.text <+: encodeAll vs := (List.prefix_append _ _).trans hfed
      rcases next_of_replies hvs hfailure htext with ⟨hnext, _⟩ | ⟨v, hnext, hv⟩
      · obtain ⟨returned, o', hok, hnone, htext, hdrop, hsession⟩ := ih hfailure hfed
        refine ⟨⟨redisOk, .null, none⟩ :: returned, o', ?_, hnone, htext, hdrop, ?_⟩
        · simpa [WentWell] using hok
        · intro more tail htail
          rw [List.cons_append, offlineSession, hnext, answered, Outcome.returned_bind,
            hsession more tail htail]
          rfl
      · obtain ⟨returned, o', hok, hnone, htext, hdrop, hsession⟩ :=
          @ih { o with taken := o.taken + 1 } hfailure hfed
        have hsendable : Sendable maxDepth v :=
          hvs v (List.mem_of_mem_drop (by rw [hv]; exact List.mem_cons_self))
        refine ⟨⟨redisOk, v, none⟩ :: returned, o', ?_, hnone, htext, ?_, ?_⟩
        · simpa [WentWell] using hok
        · rw [hv, handedOut_cons hsendable, List.cons_append, ← hdrop]
        · intro more tail htail
          rw [List.cons_append, offlineSession, hnext, answered, Outcome.returned_bind,
            hsession more tail htail]
          rfl

/-- **A reader that is fed the text of replies**, in any pieces, and up to any point of
    it, hands out these replies in their order, whenever it is asked, and no others; it
    reports no error. -/
theorem session_of_replies (hvs : ∀ v ∈ vs, Sendable maxDepth v) {calls : List Call}
    (hfed : fedText calls <+: encodeAll vs) :
    ∃ returned, session redisReaderCreate calls = .returned returned ∧
      (∀ x ∈ returned, WentWell x) ∧ handedOut returned <+: vs := by
  have hempty : ({} : Offline Byte Failure).text ++ fedText calls <+: encodeAll vs := hfed
  obtain ⟨returned, o', hok, _, _, hdrop, hsession⟩ := offline_of_replies hvs rfl hempty
  have hoffline := hsession [] [] rfl
  rw [List.append_nil, List.append_nil] at hoffline
  exact ⟨returned, session_of_agrees agrees_new hoffline, hok, ⟨_, hdrop.symm⟩⟩

/-- The replies that are left, when the whole text was fed. -/
theorem offline_polled (hvs : ∀ v ∈ vs, Sendable maxDepth v) (hfailure : o.failure = none)
    (htext : o.text = encodeAll vs) (n : Nat) :
    ∃ returned, offlineSession o (List.replicate n .getReply) = .returned returned ∧
      (∀ x ∈ returned, WentWell x) ∧ handedOut returned = (vs.drop o.taken).take n := by
  induction n generalizing o with
  | zero => exact ⟨[], rfl, by simp, by simp [handedOut]⟩
  | succ n ih =>
    rw [List.replicate_succ, offlineSession]
    rcases next_of_replies hvs hfailure (by simp [htext]) with ⟨hnext, hnone⟩ | ⟨v, hnext, hv⟩
    · obtain ⟨returned, hsession, hok, hhanded⟩ := ih hfailure htext
      refine ⟨⟨redisOk, .null, none⟩ :: returned, ?_, ?_, ?_⟩
      · rw [hnext, answered, Outcome.returned_bind, hsession, Outcome.returned_bind]
      · simpa [WentWell] using hok
      · rw [hnone htext] at hhanded ⊢
        simpa [handedOut] using hhanded
    · obtain ⟨returned, hsession, hok, hhanded⟩ :=
        @ih { o with taken := o.taken + 1 } hfailure htext
      have hsendable : Sendable maxDepth v :=
        hvs v (List.mem_of_mem_drop (by rw [hv]; exact List.mem_cons_self))
      refine ⟨⟨redisOk, v, none⟩ :: returned, ?_, ?_, ?_⟩
      · rw [hnext, answered, Outcome.returned_bind, hsession, Outcome.returned_bind]
      · simpa [WentWell] using hok
      · rw [handedOut_cons hsendable, hhanded, hv, List.take_succ_cons]

/-- **It hands out all of them** when it was fed the whole text and is then asked as
    often as there are replies. -/
theorem session_polled (hvs : ∀ v ∈ vs, Sendable maxDepth v) {calls : List Call}
    (hfed : fedText calls = encodeAll vs) :
    ∃ returned, session redisReaderCreate (calls ++ List.replicate vs.length .getReply) =
        .returned returned ∧
      (∀ x ∈ returned, WentWell x) ∧ handedOut returned = vs := by
  have hempty : ({} : Offline Byte Failure).text ++ fedText calls <+: encodeAll vs := by
    simp [hfed]
  obtain ⟨returned, o', hok, hnone, htext, hdrop, hsession⟩ := offline_of_replies hvs rfl hempty
  rw [hfed, List.nil_append] at htext
  obtain ⟨polled, hpolled, hwell, hhanded⟩ := offline_polled hvs hnone htext vs.length
  have hall := hsession _ _ hpolled
  refine ⟨returned ++ polled, session_of_agrees agrees_new hall, ?_, ?_⟩
  · intro x hx
    exact (List.mem_append.mp hx).elim (hok x) (hwell x)
  · have happend : ∀ xs : List Returned, handedOut (xs ++ polled) =
        handedOut xs ++ handedOut polled := by
      intro xs
      induction xs with
      | nil => rfl
      | cons x xs ih =>
        obtain ⟨status, reply, err⟩ := x
        cases reply <;> simp [handedOut, ih]
    rw [happend, hhanded, List.take_of_length_le (by simp), ← hdrop]
    rfl

/-- A reply with a line break in a string, in two pieces, the second of which begins in
    the middle of a length. -/
theorem session_polled_twoPieces :
    ∃ returned, session redisReaderCreate
        ([.feed (str "*2\r\n$1"), .getReply, .feed (str "0\r\na line\r\nbc\r\n:-5\r\n")] ++
          List.replicate 1 .getReply) = .returned returned ∧
      (∀ x ∈ returned, WentWell x) ∧
      handedOut returned =
        [.array 2 [.string .string (str "a line\r\nbc"), .integer (-5)]] := by
  have hvs : ∀ v ∈ [RedisReply.array 2 [.string .string (str "a line\r\nbc"), .integer (-5)]],
      Sendable maxDepth v := by
    intro v hv
    obtain rfl := List.mem_singleton.mp hv
    refine ⟨rfl, by decide, ?_⟩
    intro w hw
    rcases List.mem_pair.mp hw with rfl | rfl
    · exact show ((str "a line\r\nbc").length : Int) + 2 ≤ longMax by decide +kernel
    · exact show -longMax ≤ (-5 : Int) ∧ (-5 : Int) ≤ longMax by decide
  exact session_polled hvs (by decide +kernel)

end NvrecYcsb.ReplyRoundTrip
