/-
  NvrecYcsb/Hiredis.lean
  ======================
  **How hiredis turns a format into a command** (`redisvFormatCommand` and
  `redisvAppendCommand` of `redis/hiredis/hiredis.c`).

  A format is read byte by byte: a space ends an argument, `%` begins a directive
  that takes what it prints from the variable arguments, any other byte is itself.
  A `%` that is the last byte of the format is itself as well.  The arguments
  collected are then written out with their number and their lengths.

  A directive that finds no argument of its type, or that goes on past the end of
  the format, is undefined.  `vsnprintf`, for one conversion, is a parameter.
  Allocation succeeds, and the sizes fit their types.

  * `formatLoop_plain`: a format without directives is cut at its spaces;
  * `formatLoop_loses`: without variable arguments a directive loses a byte;
  * `length_multiBulk`: the length computed ahead is the length of what is written.
-/
import NvrecYcsb.StlHashtable

namespace NvrecYcsb.Hiredis

open CppRuntime StlHashtable

def space : Byte := 32
def percent : Byte := 37

/-- The type of a variable argument that a conversion takes. -/
inductive VaType where
  | int | double | long | longLong
deriving DecidableEq

/-- A variable argument, a `double` as its representation. -/
inductive VaArg where
  | string (s : Str)
  | size (n : Nat)
  | value (type : VaType) (bits : Int)

/-- `curarg`, `touched`, `curargv` and the variable arguments not taken yet. -/
structure FormatState where
  curarg : Str := []
  touched : Bool := false
  argv : List Str := []
  ap : List VaArg := []

/-- How the formatting ends: with the arguments of the command, or with the error
    that the format is invalid. -/
inductive FormatEnd where
  | formatted (argv : List Str)
  | formatError
  | undefined
deriving DecidableEq

namespace FormatState

/-- `sdscatlen(curarg, …)`; the argument counts as touched, whatever was added. -/
def cat (s : FormatState) (bytes : Str) : FormatState :=
  { s with curarg := s.curarg ++ bytes, touched := true }

/-- `curarg` becomes an argument when it was touched. -/
def push (s : FormatState) : FormatState :=
  if s.touched then { s with curarg := [], touched := false, argv := s.argv ++ [s.curarg] } else s

/-- A byte of the format that stands for itself, or ends an argument. -/
def putChar (s : FormatState) (c : Byte) : FormatState := if c = space then s.push else s.cat [c]

end FormatState

/-! ### Directives -/

def intfmts : List Byte := [100, 105, 111, 117, 120, 88]           -- "diouxX"
def doublefmts : List Byte := [101, 69, 102, 70, 103, 71, 97, 65]  -- "eEfFgGaA"
def flags : List Byte := [35, 48, 45, 43, 32]                      -- "#0-+ "

/-- An integer conversion after its size, `q` being what follows the size. -/
def intConversion (t : Str) (type : VaType) : Str → Option (VaType × Nat)
  | [] => none
  | c :: q => if c ∈ intfmts then some (type, t.length - q.length) else none

/-- The conversion that follows a `%`: the type it takes and its length, with the
    byte that ends it; `none` when there is none.  `strchr` finds the NUL at the end
    of the format in its list, so a format that ends here has an integer conversion,
    one byte longer than what is left. -/
def conversion (t : Str) : Option (VaType × Nat) :=
  let p := (t.dropWhile (· ∈ flags)).dropWhile isDigit
  let p := if p.head? = some 46 then p.tail.dropWhile isDigit else p
  match p with
  | [] => some (.int, t.length + 1)
  | c :: q =>
    if c ∈ intfmts then some (.int, t.length - q.length)
    else if c ∈ doublefmts then some (.double, t.length - q.length)
    else if c = 104 then -- 'h'
      if q.head? = some 104 then intConversion t .int q.tail else intConversion t .int q
    else if c = 108 then -- 'l'
      if q.head? = some 108 then intConversion t .longLong q.tail else intConversion t .long q
    else none

/-- `va_arg`. -/
def vaArg (type : VaType) : List VaArg → Option (Int × List VaArg)
  | .value type' bits :: ap => if type' = type then some (bits, ap) else none
  | _ => none

/-- What a directive does: it ends the formatting, or the loop goes on so many bytes
    after the `%`. -/
inductive Directive where
  | formatError
  | undefined
  | next (skip : Nat) (s : FormatState)

/-- `sizeof(_format) - 2`. -/
def formatSize : Nat := 14

/-- The directive that `t` begins with, after its `%`. -/
def directive (vsnprintf : Str → VaType → Int → Str) (t : Str) (s : FormatState) : Directive :=
  if t.head? = some 115 then -- 's'
    match s.ap with
    | .string arg :: ap => .next 1 ({ s with ap := ap }.cat (cStr arg))
    | _ => .undefined
  else if t.head? = some 98 then -- 'b'
    match s.ap with
    | .string arg :: .size size :: ap =>
      if size ≤ arg.length then .next 1 ({ s with ap := ap }.cat (arg.take size))
      else .undefined
    | _ => .undefined
  else if t.head? = some percent then .next 1 (s.cat [percent])
  else
    match conversion t with
    | none => .formatError
    | some (type, length) =>
      match vaArg type s.ap with
      | none => .undefined
      | some (bits, ap) =>
        if length + 1 < formatSize then
          if t.length < length then .undefined -- the loop is past the NUL
          else .next length
            ({ s with ap := ap }.cat (vsnprintf (percent :: t.take length) type bits))
        else .next 1 ({ s with ap := ap }.cat [])

/-! ### The loop -/

section Loop

variable (vsnprintf : Str → VaType → Int → Str)

/-- The loop of `redisvFormatCommand`, and the last argument after it. -/
def formatLoop : Str → FormatState → FormatEnd
  | [], s => .formatted s.push.argv
  | c :: t, s =>
    if c ≠ percent ∨ t = [] then formatLoop t (s.putChar c)
    else
      match directive vsnprintf t s with
      | .formatError => .formatError
      | .undefined => .undefined
      | .next skip s => formatLoop (t.drop skip) s
termination_by t => t.length
decreasing_by
  · simp
  · simp only [List.length_drop, List.length_cons]
    omega

/-- `redisvFormatCommand`, but for the text it builds of the arguments. -/
def redisvFormatCommand (format : Str) (ap : List VaArg) : FormatEnd :=
  formatLoop vsnprintf (cStr format) { ap := ap }

end Loop

/-! ### The text of a command -/

def crlf : Str := [13, 10]

/-- `countDigits`. -/
def countDigits (v : Nat) : Nat :=
  if v < 10 then 1
  else if v < 100 then 2
  else if v < 1000 then 3
  else if v < 10000 then 4
  else countDigits (v / 10000) + 4

/-- `bulklen`. -/
def bulklen (len : Nat) : Nat := 1 + countDigits len + 2 + len + 2

/-- What `totlen` adds up to. -/
def totlen (argv : List Str) : Nat :=
  (argv.map fun arg => bulklen arg.length).sum + (1 + countDigits argv.length + 2)

/-- `cmd`: the number of arguments, and each with its length. -/
def multiBulk (argv : List Str) : Str :=
  str "*" ++ stdToString argv.length ++ crlf ++
    argv.flatMap fun arg => str "$" ++ stdToString arg.length ++ crlf ++ arg ++ crlf

/-- The output buffer and the error of a `redisContext`. -/
structure RedisContext where
  obuf : Str := []
  errstr : Option Str := none

def redisOk : Int := 0
def redisErr : Int := -1

/-- `redisvAppendCommand`. -/
def redisvAppendCommand (vsnprintf : Str → VaType → Int → Str) (c : RedisContext) (format : Str)
    (ap : List VaArg) : Outcome (Int × RedisContext) :=
  match redisvFormatCommand vsnprintf format ap with
  | .formatted argv => .returned (redisOk, { c with obuf := c.obuf ++ multiBulk argv })
  | .formatError => .returned (redisErr, { c with errstr := some (str "Invalid format string") })
  | .undefined => .undefined

/-! ### The length of a command -/

theorem length_stdToString_of_le {v : Nat} (h : 10 ≤ v) :
    (stdToString v).length = (stdToString (v / 10)).length + 1 := by
  rw [stdToString, stdToString, Nat.toDigits_of_base_le (by decide) h, List.map_append,
    List.length_append]
  rfl

/-- **`countDigits` counts the digits that are printed.** -/
theorem countDigits_eq (v : Nat) : countDigits v = (stdToString v).length := by
  induction v using Nat.strong_induction_on with
  | _ v ih =>
    have hone : ∀ w < 10, (stdToString w).length = 1 := by
      intro w hw
      rw [stdToString, Nat.toDigits_of_lt_base hw]
      rfl
    rw [countDigits]
    by_cases hv1 : v < 10
    · rw [if_pos hv1, hone v hv1]
    rw [if_neg hv1, length_stdToString_of_le (not_lt.mp hv1)]
    by_cases hv2 : v < 100
    · rw [if_pos hv2, hone _ (by omega)]
    rw [if_neg hv2, length_stdToString_of_le (by omega)]
    by_cases hv3 : v < 1000
    · rw [if_pos hv3, hone _ (by omega)]
    rw [if_neg hv3, length_stdToString_of_le (by omega)]
    by_cases hv4 : v < 10000
    · rw [if_pos hv4, hone _ (by omega)]
    rw [if_neg hv4, length_stdToString_of_le (by omega), ih _ (by omega)]
    simp only [Nat.div_div_eq_div_mul]

/-- **`assert(pos == totlen)`.** -/
theorem length_multiBulk (argv : List Str) : (multiBulk argv).length = totlen argv := by
  have hargs : ∀ args : List Str,
      (args.flatMap fun arg => str "$" ++ stdToString arg.length ++ crlf ++ arg ++ crlf).length =
        (args.map fun arg => bulklen arg.length).sum := by
    intro args
    rw [List.length_flatMap]
    congr 1
    apply List.map_congr_left
    intro arg _
    simp only [List.length_append, bulklen, countDigits_eq]
    rfl
  rw [multiBulk, List.length_append, hargs, totlen, countDigits_eq]
  simp only [List.length_append]
  rw [Nat.add_comm]
  rfl

/-! ### Formats without directives -/

section Plain

variable {vsnprintf : Str → VaType → Int → Str}

/-- A byte that begins no directive. -/
theorem mem_dropLast_cons {c : Byte} {t : Str} (h : c ≠ percent ∨ t = []) :
    percent ∈ (c :: t).dropLast ↔ percent ∈ t.dropLast := by
  cases t with
  | nil => rfl
  | cons d t =>
    rw [List.dropLast_cons_cons, List.mem_cons]
    exact or_iff_right (h.resolve_right (List.cons_ne_nil d t)).symm

theorem formatLoop_nil (s : FormatState) :
    formatLoop vsnprintf [] s = .formatted s.push.argv := by rw [formatLoop]

/-- **A format without directives** is read byte by byte. -/
theorem formatLoop_plain {format : Str} (h : percent ∉ format.dropLast) (s : FormatState) :
    formatLoop vsnprintf format s = .formatted (format.foldl FormatState.putChar s).push.argv := by
  induction format generalizing s with
  | nil => exact formatLoop_nil s
  | cons c t ih =>
    have hplain : c ≠ percent ∨ t = [] := by
      by_cases ht : t = []
      · exact .inr ht
      · left
        rintro rfl
        exact h (by simp [List.dropLast_cons_of_ne_nil ht])
    rw [mem_dropLast_cons hplain] at h
    rw [formatLoop, if_pos hplain, ih h, List.foldl_cons]

/-- The bytes before the first directive are read one by one. -/
theorem formatLoop_append {before : Str} (h : percent ∉ before) (format : Str) (s : FormatState) :
    formatLoop vsnprintf (before ++ format) s =
      formatLoop vsnprintf format (before.foldl FormatState.putChar s) := by
  induction before generalizing s with
  | nil => rfl
  | cons c before ih =>
    have hc : c ≠ percent := fun heq => h (heq ▸ List.mem_cons_self)
    have hbefore : percent ∉ before := fun hmem => h (List.mem_cons_of_mem c hmem)
    rw [List.cons_append, formatLoop, if_pos (.inl hc), ih hbefore, List.foldl_cons]

/-- A directive that is followed goes on after it. -/
theorem formatLoop_directive {c : Byte} {t : Str} {s s' : FormatState} {skip : Nat}
    (h : directive vsnprintf (c :: t) s = .next skip s') :
    formatLoop vsnprintf (percent :: c :: t) s = formatLoop vsnprintf ((c :: t).drop skip) s' := by
  have hdirective : ¬(percent ≠ percent ∨ c :: t = []) := by simp
  rw [formatLoop, if_neg hdirective, h]

/-- The bytes of a word are added to the argument. -/
theorem foldl_putChar {word : Str} (h : space ∉ word) (s : FormatState) (hs : s.touched = true) :
    word.foldl FormatState.putChar s = s.cat word := by
  induction word generalizing s with
  | nil =>
    obtain ⟨curarg, touched, argv, ap⟩ := s
    obtain rfl : touched = true := hs
    simp [FormatState.cat]
  | cons c word ih =>
    have hc : c ≠ space := fun heq => h (heq ▸ List.mem_cons_self)
    have hword : space ∉ word := fun hmem => h (List.mem_cons_of_mem c hmem)
    rw [List.foldl_cons, FormatState.putChar, if_neg hc, ih hword _ rfl]
    simp [FormatState.cat]

/-- **Words after spaces** become the arguments. -/
theorem push_foldl_words {words : List Str} (h : ∀ word ∈ words, word ≠ [] ∧ space ∉ word)
    (s : FormatState) (hs : s.touched = true) :
    ((words.flatMap fun word => space :: word).foldl FormatState.putChar s).push.argv =
      s.argv ++ s.curarg :: words := by
  induction words generalizing s with
  | nil => simp [FormatState.push, hs]
  | cons word words ih =>
    obtain ⟨hne, hspace⟩ := h word List.mem_cons_self
    have hwords : ∀ w ∈ words, w ≠ [] ∧ space ∉ w := fun w hw => h w (List.mem_cons_of_mem word hw)
    obtain ⟨c, word, rfl⟩ := List.exists_cons_of_ne_nil hne
    have hc : c ≠ space := fun heq => hspace (heq ▸ List.mem_cons_self)
    have hword : space ∉ word := fun hmem => hspace (List.mem_cons_of_mem c hmem)
    have hend : s.putChar space = s.push := if_pos rfl
    have hbegin : s.push.putChar c = s.push.cat [c] := if_neg hc
    rw [List.flatMap_cons, List.foldl_append, List.foldl_cons, List.foldl_cons, hend, hbegin,
      foldl_putChar hword _ rfl, ih hwords _ rfl]
    simp [FormatState.push, FormatState.cat, hs]

/-! ### What a directive loses -/

/-- The bytes collected so far. -/
def FormatState.bytes (s : FormatState) : Nat := s.argv.flatten.length + s.curarg.length

theorem bytes_push_le (s : FormatState) : s.push.bytes ≤ s.bytes := by
  rw [FormatState.push]
  split
  · simp [FormatState.bytes]
  · exact le_refl _

theorem ap_putChar (s : FormatState) (c : Byte) : (s.putChar c).ap = s.ap := by
  rw [FormatState.putChar, FormatState.push]
  split_ifs <;> rfl

theorem bytes_cat (s : FormatState) (bytes : Str) : (s.cat bytes).bytes = s.bytes + bytes.length := by
  simp [FormatState.bytes, FormatState.cat, Nat.add_assoc]

/-- The bytes of a format that are not spaces. -/
def inkOf (format : Str) : Nat := format.countP (· != space)

theorem inkOf_append (s t : Str) : inkOf (s ++ t) = inkOf s + inkOf t := List.countP_append

theorem bytes_putChar_le (s : FormatState) (c : Byte) :
    (s.putChar c).bytes ≤ s.bytes + inkOf [c] := by
  rw [FormatState.putChar]
  by_cases hc : c = space
  · rw [if_pos hc]
    exact (bytes_push_le s).trans (Nat.le_add_right _ _)
  · rw [if_neg hc, bytes_cat, inkOf, List.countP_singleton, if_pos (by simpa using hc)]
    exact le_refl _

/-- Without variable arguments the only directive that is followed by anything is
    `%%`. -/
theorem directive_noArgs {t : Str} {s s' : FormatState} {skip : Nat} (hap : s.ap = [])
    (h : directive vsnprintf t s = .next skip s') :
    ∃ rest, t = percent :: rest ∧ skip = 1 ∧ s' = s.cat [percent] := by
  rw [directive, hap] at h
  split_ifs at h with hs hb hpercent
  · obtain ⟨rest, rfl⟩ := List.head?_eq_some_iff.mp hpercent
    cases h
    exact ⟨rest, rfl, rfl, rfl⟩
  · cases hconversion : conversion t with
    | none =>
      rw [hconversion] at h
      cases h
    | some found =>
      rw [hconversion] at h
      cases h

/-- **A directive loses a byte.**  Without variable arguments, what is collected of a
    format has fewer bytes than the format has, its spaces aside. -/
theorem formatLoop_loses {format : Str} {s : FormatState} (hap : s.ap = []) {argv : List Str}
    (h : formatLoop vsnprintf format s = .formatted argv) :
    argv.flatten.length + (if percent ∈ format.dropLast then 1 else 0) ≤
      s.bytes + inkOf format := by
  induction hn : format.length using Nat.strong_induction_on generalizing format s with
  | _ n ih =>
    cases format with
    | nil =>
      rw [formatLoop] at h
      cases h
      have hpush := bytes_push_le s
      rw [FormatState.bytes] at hpush
      simp only [List.dropLast_nil, List.not_mem_nil, if_false]
      omega
    | cons c t =>
      rw [formatLoop] at h
      by_cases hplain : c ≠ percent ∨ t = []
      · rw [if_pos hplain] at h
        have hrec := ih t.length (by rw [← hn]; exact Nat.lt_succ_self _)
          (by rw [ap_putChar, hap]) h rfl
        have hput := bytes_putChar_le s c
        have hink : inkOf (c :: t) = inkOf [c] + inkOf t := inkOf_append [c] t
        simp only [mem_dropLast_cons hplain]
        omega
      · rw [if_neg hplain] at h
        cases hdirective : directive vsnprintf t s with
        | formatError => rw [hdirective] at h; cases h
        | undefined => rw [hdirective] at h; cases h
        | next skip s' =>
          obtain ⟨rest, rfl, rfl, rfl⟩ := directive_noArgs hap hdirective
          obtain rfl : c = percent := by
            by_contra hc
            exact hplain (.inl hc)
          simp only [hdirective, List.drop_succ_cons, List.drop_zero] at h
          have hlt : rest.length < n := by
            rw [← hn, List.length_cons, List.length_cons]
            omega
          have hrec := ih rest.length hlt (s := s.cat [percent]) hap h rfl
          have hcat := bytes_cat s [percent]
          have hink : inkOf (percent :: percent :: rest) = 2 + inkOf rest :=
            inkOf_append [percent, percent] rest
          split_ifs at hrec ⊢ <;> simp only [List.length_singleton] at hcat <;> omega

end Plain

end NvrecYcsb.Hiredis
