/-
  NvrecYcsb/PropertiesFile.lean
  =============================
  **Reading a properties file** (`Properties::Load` of `core/properties.h`, `Trim`
  of `core/utils.h`).

  `Load` reads a stream line by line until the stream has met its end, or a read
  has failed.  A line that begins with `#` or has no `=` is passed over; any other
  line is cut at its first `=`, and both parts are trimmed.

  * `loadLoop_eq`: the lines that `Load` sees are those between the newlines, the
    one after the last newline included;
  * `trim_pad`: `Trim` takes off what was put around a trimmed string;
  * `load_parses_back`: a file written line by line is read back as it was written.
-/
import NvrecYcsb.CoreWorkload
import NvrecYcsb.KeyedLog
import Mathlib.Data.List.DropRight

namespace NvrecYcsb.Workload

open CppRuntime KeyedLog

def newline : Byte := 10
def numberSign : Byte := 35
def equalsSign : Byte := 61

/-! ### The stream -/

/-- A `std::ifstream`: what can still be read, whether the read after that fails or
    finds the end of the file, and the flags that say what reads have met. -/
structure IfStream where
  isOpen : Bool
  rest : Str := []
  readFails : Bool := false
  eof : Bool := false
  bad : Bool := false

/-- `std::getline` into an empty string. -/
def getline (input : IfStream) : Str × IfStream :=
  if input.eof || input.bad then ([], input)
  else if newline ∈ input.rest then
    (input.rest.takeWhile (· != newline),
      { input with rest := (input.rest.dropWhile (· != newline)).tail })
  else
    (input.rest, { input with rest := [], eof := !input.readFails, bad := input.readFails })

/-- A stream on a file that was opened. -/
def openFile (content : Str) : IfStream := { isOpen := true, rest := content }

/-! ### `Load` -/

/-- `Trim`. -/
def trim (s : Str) : Str := (s.dropWhile isSpace).rdropWhile isSpace

/-- `SetProperty`. -/
def setProperty (p : Properties) (key value : Str) : Properties :=
  Function.update p key (some value)

/-- What `Load` does with a line; `line[0]` of an empty line is NUL. -/
def loadLine (p : Properties) (line : Str) : Properties :=
  if line.headD 0 = numberSign then p
  else
    match line.findIdx? (· == equalsSign) with
    | none => p
    | some pos => setProperty p (trim (line.take pos)) (trim (line.drop (pos + 1)))

/-- How much a stream has left to give. -/
def IfStream.left (input : IfStream) : Nat :=
  if input.eof || input.bad then 0 else input.rest.length + 1

theorem left_getline {input : IfStream} (h : ¬(input.eof || input.bad) = true) :
    (getline input).2.left < input.left := by
  rw [IfStream.left, IfStream.left, if_neg h, getline, if_neg h]
  by_cases hline : newline ∈ input.rest
  · -- the newline itself is read
    have hdrop : (input.rest.dropWhile (· != newline)) ≠ [] := by
      intro hnil
      have hall := List.dropWhile_eq_nil_iff.mp hnil newline hline
      simp at hall
    have hlen := (List.dropWhile_suffix (l := input.rest) (· != newline)).length_le
    have hpos := List.length_pos_iff.mpr hdrop
    rw [if_pos hline, if_neg h, List.length_tail]
    omega
  · rw [if_neg hline]
    cases input.readFails <;> simp

/-- The loop of `Load`. -/
def loadLoop (p : Properties) (input : IfStream) : Properties :=
  if input.eof || input.bad then p
  else loadLoop (loadLine p (getline input).1) (getline input).2
termination_by input.left
decreasing_by exact left_getline ‹_›

/-- `Load`: what it returns, and the properties after it. -/
def load (p : Properties) (input : IfStream) : Except Exn (Bool × Properties) :=
  if input.isOpen then .ok (true, loadLoop p input)
  else .error (.exception (str "File not open!"))

/-! ### The lines -/

theorem getline_line {input : IfStream} (h : ¬(input.eof || input.bad) = true) {line rest : Str}
    (hrest : input.rest = line ++ newline :: rest) (hline : newline ∉ line) :
    getline input = (line, { input with rest := rest }) := by
  have hkept : ∀ b ∈ line, (b != newline) = true := by
    intro b hb
    have hne : b ≠ newline := fun heq => hline (heq ▸ hb)
    simpa using hne
  have hmem : newline ∈ input.rest := by simp [hrest]
  rw [getline, if_neg h, if_pos hmem, hrest, List.takeWhile_append_of_pos hkept,
    List.dropWhile_append_of_pos hkept, List.takeWhile_cons_of_neg (by simp),
    List.dropWhile_cons_of_neg (by simp), List.append_nil, List.tail_cons]

/-- **`Load` goes through the lines between the newlines.** -/
theorem loadLoop_eq (p : Properties) (input : IfStream) (heof : input.eof = false)
    (hbad : input.bad = false) :
    loadLoop p input = (input.rest.splitOn newline).foldl loadLine p := by
  have hgood : ¬(input.eof || input.bad) = true := by simp [heof, hbad]
  generalize hn : input.rest.length = n
  induction n using Nat.strong_induction_on generalizing p input with
  | _ n ih =>
    rw [loadLoop, if_neg hgood]
    by_cases hmem : newline ∈ input.rest
    · obtain ⟨line, rest, hrest, hline⟩ := List.eq_append_cons_of_mem hmem
      have hlt : rest.length < n := by
        rw [← hn, hrest, List.length_append, List.length_cons]
        omega
      rw [getline_line hgood hrest hline, ih _ hlt _ { input with rest := rest } heof hbad hgood rfl,
        hrest, List.splitOn_append_cons_self_of_not_mem hline, List.foldl_cons]
    · -- the last line: the read that takes it meets the end
      rw [getline, if_neg hgood, if_neg hmem, List.splitOn_eq_singleton hmem, List.foldl_cons,
        List.foldl_nil, loadLoop, if_pos (by cases input.readFails <;> rfl)]

/-- A stream that is open gives `Load` all its lines, and `Load` returns. -/
theorem load_eq (p : Properties) {input : IfStream} (hopen : input.isOpen = true)
    (heof : input.eof = false) (hbad : input.bad = false) :
    load p input = .ok (true, (input.rest.splitOn newline).foldl loadLine p) := by
  rw [load, if_pos hopen, loadLoop_eq p input heof hbad]

/-! ### Files written line by line -/

/-- White space that does not end the line. -/
def Blank (s : Str) : Prop := ∀ b ∈ s, isSpace b = true ∧ b ≠ newline

/-- No white space at either end. -/
def Trimmed (s : Str) : Prop :=
  (∀ b ∈ s.head?, isSpace b = false) ∧ ∀ b ∈ s.getLast?, isSpace b = false

instance (s : Str) : Decidable (Blank s) := inferInstanceAs (Decidable (∀ b ∈ s, _))

instance (s : Str) : Decidable (Trimmed s) :=
  inferInstanceAs (Decidable ((∀ b ∈ s.head?, _) ∧ ∀ b ∈ s.getLast?, _))

/-- A line of a properties file: a binding, with what stands around its key and its
    value, or a line that binds nothing. -/
inductive FileLine where
  | binding (beforeKey key afterKey beforeValue value afterValue : Str)
  | other (text : Str)

namespace FileLine

def text : FileLine → Str
  | .binding beforeKey key afterKey beforeValue value afterValue =>
    (beforeKey ++ (key ++ afterKey)) ++ equalsSign :: (beforeValue ++ (value ++ afterValue))
  | .other text => text

def bound : FileLine → Option (Str × Str)
  | .binding _ key _ _ value _ => some (key, value)
  | .other _ => none

/-- The line is one that may be written. -/
def Ok : FileLine → Prop
  | .binding beforeKey key afterKey beforeValue value afterValue =>
    (equalsSign ∉ key ∧ newline ∉ key ∧ key.head? ≠ some numberSign ∧ Trimmed key) ∧
      (newline ∉ value ∧ Trimmed value) ∧
      Blank beforeKey ∧ Blank afterKey ∧ Blank beforeValue ∧ Blank afterValue
  | .other text => newline ∉ text ∧ (text.head? = some numberSign ∨ equalsSign ∉ text)

instance : ∀ line : FileLine, Decidable line.Ok
  | .binding .. => inferInstanceAs (Decidable ((_ ∧ _ ∧ _ ∧ _) ∧ (_ ∧ _) ∧ _ ∧ _ ∧ _ ∧ _))
  | .other _ => inferInstanceAs (Decidable (_ ∧ (_ ∨ _)))

end FileLine

/-- The text of a file, its last line ended by a newline or not. -/
def fileText (lines : List FileLine) (finalNewline : Bool) : Str :=
  if finalNewline then lines.flatMap fun line => line.text ++ [newline]
  else [newline].intercalate (lines.map FileLine.text)

/-- The bindings of a file, in order. -/
def bindings (lines : List FileLine) : List (Str × Str) := lines.filterMap FileLine.bound

/-! ### One line -/

theorem not_isSpace_of_mem_punctuation {b : Byte} (h : b = equalsSign ∨ b = numberSign) :
    isSpace b = false := by
  rcases h with rfl | rfl <;> decide

theorem Blank.not_mem {s : Str} (h : Blank s) {b : Byte} (hb : isSpace b = false) : b ∉ s := by
  intro hmem
  rw [(h b hmem).1] at hb
  cases hb

/-- **`Trim` takes off what stands around a trimmed string.** -/
theorem trim_pad {before s after : Str} (hbefore : Blank before) (hs : Trimmed s)
    (hafter : Blank after) : trim (before ++ (s ++ after)) = s := by
  have hspaces : ∀ {t : Str}, Blank t → ∀ b ∈ t, isSpace b = true := fun ht b hb => (ht b hb).1
  rw [trim, List.dropWhile_append_of_pos (hspaces hbefore)]
  cases s with
  | nil => rw [List.nil_append, List.dropWhile_eq_nil_iff.mpr (hspaces hafter), List.rdropWhile_nil]
  | cons b s =>
    have hfirst : isSpace b = false := hs.1 b rfl
    rw [List.cons_append, List.dropWhile_cons_of_neg (by simp [hfirst]), ← List.cons_append,
      List.rdropWhile, List.reverse_append, List.dropWhile_append_of_pos]
    · have hlast : (b :: s).rdropWhile isSpace = b :: s := by
        rw [List.rdropWhile_eq_self_iff]
        intro hne
        have hmem : (b :: s).getLast hne ∈ (b :: s).getLast? := by
          rw [List.getLast?_eq_some_getLast hne]
          rfl
        rw [hs.2 _ hmem]
        exact Bool.false_ne_true
      exact hlast
    · intro c hc
      exact hspaces hafter c (List.mem_reverse.mp hc)

theorem findIdx?_equalsSign {left : Str} (h : equalsSign ∉ left) (right : Str) :
    (left ++ equalsSign :: right).findIdx? (· == equalsSign) = some left.length := by
  have hnone : left.findIdx? (· == equalsSign) = none := by
    rw [List.findIdx?_eq_none_iff]
    intro b hb
    have hne : b ≠ equalsSign := fun heq => h (heq ▸ hb)
    simpa using hne
  rw [List.findIdx?_append, hnone, List.findIdx?_cons]
  simp

theorem drop_equalsSign (left right : Str) :
    (left ++ equalsSign :: right).drop (left.length + 1) = right := by
  rw [List.drop_append, List.drop_eq_nil_of_le (Nat.le_succ _), Nat.add_sub_cancel_left]
  rfl

/-- A line with a binding does not begin with `#`. -/
theorem headD_text {before key after rest : Str} (hbefore : Blank before) (hafter : Blank after)
    (hkey : key.head? ≠ some numberSign) :
    ((before ++ (key ++ after)) ++ equalsSign :: rest).headD 0 ≠ numberSign := by
  have hblank : ∀ {b : Byte} {t : Str}, Blank (b :: t) → b ≠ numberSign := by
    rintro b t ht rfl
    exact ht.not_mem (not_isSpace_of_mem_punctuation (.inr rfl)) List.mem_cons_self
  cases before with
  | cons b before => exact hblank hbefore
  | nil =>
    cases key with
    | cons b key =>
      intro heq
      exact hkey (congrArg some heq)
    | nil =>
      cases after with
      | cons b after => exact hblank hafter
      | nil =>
        show equalsSign ≠ numberSign
        decide

/-- **A line is read as it was written.** -/
theorem loadLine_text (p : Properties) {line : FileLine} (h : line.Ok) :
    loadLine p line.text =
      match line.bound with
      | some binding => setProperty p binding.1 binding.2
      | none => p := by
  cases line with
  | binding beforeKey key afterKey beforeValue value afterValue =>
    obtain ⟨⟨hequals, -, hsign, hkey⟩, ⟨-, hvalue⟩, hbk, hak, hbv, hav⟩ := h
    have hspace : isSpace equalsSign = false := not_isSpace_of_mem_punctuation (.inl rfl)
    have hleft : equalsSign ∉ beforeKey ++ (key ++ afterKey) := by
      simp [hbk.not_mem hspace, hequals, hak.not_mem hspace]
    show loadLine p ((beforeKey ++ (key ++ afterKey)) ++ _) = setProperty p key value
    rw [loadLine, if_neg (headD_text hbk hak hsign), findIdx?_equalsSign hleft]
    simp only [List.take_left, drop_equalsSign]
    rw [trim_pad hbk hkey hak, trim_pad hbv hvalue hav]
  | other text =>
    obtain ⟨-, hsign | hequals⟩ := h
    · show loadLine p text = p
      rw [loadLine, if_pos]
      rw [List.headD_eq_head?_getD, hsign, Option.getD_some]
    · have hnone : text.findIdx? (· == equalsSign) = none := by
        rw [List.findIdx?_eq_none_iff]
        intro b hb
        have hne : b ≠ equalsSign := fun heq => hequals (heq ▸ hb)
        simpa using hne
      show loadLine p text = p
      rw [loadLine, hnone]
      simp

/-! ### The whole file -/

theorem not_mem_text {line : FileLine} (h : line.Ok) : newline ∉ line.text := by
  cases line with
  | binding beforeKey key afterKey beforeValue value afterValue =>
    obtain ⟨⟨-, hkey, -, -⟩, ⟨hvalue, -⟩, hbk, hak, hbv, hav⟩ := h
    have hblank : ∀ {t : Str}, Blank t → newline ∉ t := fun ht hmem => (ht _ hmem).2 rfl
    have hequals : newline ≠ equalsSign := by decide
    simp [FileLine.text, hblank hbk, hkey, hblank hak, hequals, hblank hbv, hvalue, hblank hav]
  | other text => exact h.1

/-- Lines that are all ended are lines with an empty one after them. -/
theorem flatMap_newline (texts : List Str) :
    (texts.flatMap fun text => text ++ [newline]) = [newline].intercalate (texts ++ [[]]) := by
  induction texts with
  | nil => rfl
  | cons text texts ih =>
    rw [List.flatMap_cons, ih, List.cons_append, List.intercalate_cons_of_ne_nil (by simp)]

/-- The lines of the file, and what may be seen as one more, empty line. -/
theorem splitOn_fileText {lines : List FileLine} (h : ∀ line ∈ lines, line.Ok)
    (finalNewline : Bool) :
    (fileText lines finalNewline).splitOn newline = lines.map FileLine.text ∨
      (fileText lines finalNewline).splitOn newline = lines.map FileLine.text ++ [[]] := by
  have htexts : ∀ text ∈ lines.map FileLine.text, newline ∉ text := by
    intro text htext
    obtain ⟨line, hline, rfl⟩ := List.mem_map.mp htext
    exact not_mem_text (h line hline)
  cases finalNewline with
  | true =>
    right
    have hflat : fileText lines true = [newline].intercalate (lines.map FileLine.text ++ [[]]) := by
      rw [← flatMap_newline, List.flatMap_map]
      rfl
    rw [hflat, List.splitOn_intercalate _ _ (by simp)]
    intro text htext
    rcases List.mem_append.mp htext with htext | hempty
    · exact htexts text htext
    · simp [List.mem_singleton.mp hempty]
  | false =>
    cases lines with
    | nil => exact .inr rfl
    | cons line lines => exact .inl (List.splitOn_intercalate _ htexts (by simp))

@[simp] theorem loadLine_nil (p : Properties) : loadLine p [] = p := rfl

/-- **`Load` sets the bindings in order.** -/
theorem foldl_loadLine (p : Properties) {lines : List FileLine} (h : ∀ line ∈ lines, line.Ok) :
    (lines.map FileLine.text).foldl loadLine p =
      (bindings lines).foldl (fun p binding => setProperty p binding.1 binding.2) p := by
  induction lines generalizing p with
  | nil => rfl
  | cons line lines ih =>
    have hrest : ∀ line ∈ lines, line.Ok := fun l hl => h l (List.mem_cons_of_mem line hl)
    rw [List.map_cons, List.foldl_cons, loadLine_text p (h line List.mem_cons_self), bindings,
      List.filterMap_cons]
    cases hbound : line.bound with
    | none => exact ih p hrest
    | some binding => exact ih _ hrest

/-- The last binding of a key wins. -/
theorem foldl_setProperty (p : Properties) (bs : List (Str × Str)) (key : Str) :
    bs.foldl (fun p binding => setProperty p binding.1 binding.2) p key =
      ((lastFor Prod.fst key bs).map Prod.snd).or (p key) := by
  induction bs generalizing p with
  | nil => rfl
  | cons binding bs ih =>
    rw [List.foldl_cons, ih, setProperty, ← List.singleton_append, lastFor_append,
      lastFor_singleton]
    by_cases hkey : binding.1 = key
    · rw [if_pos hkey, hkey, Function.update_self]
      cases lastFor Prod.fst key bs <;> rfl
    · rw [if_neg hkey, Function.update_of_ne (Ne.symm hkey)]
      cases lastFor Prod.fst key bs <;> rfl

/-- **A properties file is read back as it was written.**  `Load` returns, and every
    key has its last binding in the file, or what it had before when it has none. -/
theorem load_parses_back (p : Properties) {lines : List FileLine} (h : ∀ line ∈ lines, line.Ok)
    (finalNewline : Bool) :
    ∃ q, load p (openFile (fileText lines finalNewline)) = .ok (true, q) ∧
      ∀ key, q key = ((lastFor Prod.fst key (bindings lines)).map Prod.snd).or (p key) := by
  refine ⟨_, load_eq p rfl rfl rfl, fun key => ?_⟩
  rw [← foldl_setProperty, ← foldl_loadLine p h]
  show ((fileText lines finalNewline).splitOn newline).foldl loadLine p key = _
  rcases splitOn_fileText h finalNewline with hlines | hlines
  · rw [hlines]
  · rw [hlines, List.foldl_append, List.foldl_cons, List.foldl_nil, loadLine_nil]

/-- A comment, an empty line, and a key that is bound twice, once to a value with a `=`. -/
def boundTwice : List FileLine :=
  [.other (lit ['#', 'a', '=', 'x']), .binding [] (lit ['a']) [] [] (lit ['1']) [],
    .other [], .binding [32] (lit ['a']) [9] [32] (lit ['b', '=', 'c']) [13]]

theorem load_parses_back_boundTwice :
    ∃ q, load (fun _ => none) (openFile (fileText boundTwice false)) = .ok (true, q) ∧
      ∀ key, q key =
        ((lastFor Prod.fst key (bindings boundTwice)).map Prod.snd).or ((fun _ => none) key) :=
  load_parses_back (fun _ => none) (by decide +kernel) false

end NvrecYcsb.Workload
