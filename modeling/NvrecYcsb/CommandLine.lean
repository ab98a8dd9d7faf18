/-
  NvrecYcsb/CommandLine.lean
  ==========================
  **The command line** (`ParseCommandLine` of `ycsbc.cc`).

  The arguments are read from the left as pairs of an option and its argument.
  An option sets a property or loads a file of properties; anything that is not
  such a pair ends the program with a message and status 0.

  `Load` throws a `utils::Exception` for a file that does not open, and the handler
  around it is written for a `std::string`, so this one failure leaves the function
  as an exception.

  * `parseLoop_pairs`: what a run of valid pairs does;
  * `exists_leading`: every list of arguments is a run of valid pairs and something
    that stops it;
  * `parsesCleanly_iff`: when the function keeps its grammar and fails cleanly.
-/
import NvrecYcsb.Benchmark
import NvrecYcsb.PropertiesFile

namespace NvrecYcsb.CommandLine

open CppRuntime Workload
open Benchmark (dbNameProperty threadCountProperty)

/-- A C string: the bytes before its NUL. -/
abbrev CString := { s : Str // NulFree s }

/-- The files that open, each with its content, and whether reading it fails at the
    end. -/
abbrev Files := CString → Option (Str × Bool)

/-- `ifstream input(path)`. -/
def ifstream (files : Files) (path : CString) : IfStream :=
  match files path with
  | none => { isOpen := false }
  | some (content, readFails) => { isOpen := true, rest := content, readFails := readFails }

/-- How the function ends: it returns the name of the last file with the properties,
    it prints something and calls `exit`, an exception leaves it, or its behaviour is
    undefined. -/
inductive ParseEnd where
  | returned (filename : Str) (props : Properties)
  | exited (status : Int) (printed : Str)
  | threw (e : Exn)
  | undefined

/-- `UsageMessage`. -/
def usageMessage (command : Str) : Str :=
  str "Usage: " ++ command ++ str " [options]\n" ++
  str "Options:\n" ++
  str "  -threads n: execute using n threads (default: 1)\n" ++
  str "  -db dbname: specify the name of the DB to use (default: basic)\n" ++
  str "  -P propertyfile: load properties from the given file. Multiple files can\n" ++
  str "                   be specified, and will be processed in the order specified\n"

/-- `UsageMessage(argv[0]); exit(0);`.  Without arguments `argv[0]` is null, and a null
    `const char *` must not be printed. -/
def usageExit : Option CString → ParseEnd
  | some command => .exited 0 (usageMessage command.val)
  | none => .undefined

/-- `StrStartWith`: `strncmp` over the length of `pre`. -/
def strStartWith (s : CString) (pre : Str) : Bool := s.val.take pre.length = pre

/-- What an option does with its argument. -/
inductive Branch where
  | set (property : Str)
  | loadFile
deriving DecidableEq

/-- The comparisons of the loop, in their order. -/
def branchOf (option : CString) : Option Branch :=
  if option.val = str "-threads" then some (.set threadCountProperty)
  else if option.val = str "-db" then some (.set dbNameProperty)
  else if option.val = str "-host" then some (.set (str "host"))
  else if option.val = str "-port" then some (.set (str "port"))
  else if option.val = str "-slaves" then some (.set (str "slaves"))
  else if option.val = str "-P" then some .loadFile
  else none

/-- The locals of the function and the properties it fills in. -/
structure ParseState where
  argindex : Nat
  filename : Str
  props : Properties

/-- What follows the loop, with the arguments from `argindex` on. -/
def finish (command : Option CString) (args : List CString) (s : ParseState) : ParseEnd :=
  if s.argindex = 1 ∨ args ≠ [] then usageExit command else .returned s.filename s.props

/-- The loop, with the arguments from `argindex` on. -/
def parseLoop (files : Files) (command : Option CString) :
    List CString → ParseState → ParseEnd
  | [], s => finish command [] s
  | option :: args, s =>
    if strStartWith option (str "-") then
      match branchOf option with
      | none => .exited 0 (str "Unknown option '" ++ option.val ++ str "'\n")
      | some branch =>
        match args with
        | [] => usageExit command
        | argument :: args =>
          match branch with
          | .set property =>
            parseLoop files command args
              { s with
                argindex := s.argindex + 2
                props := setProperty s.props property argument.val }
          | .loadFile =>
            match load s.props (ifstream files argument) with
            | .ok (_, props) =>
              parseLoop files command args
                { argindex := s.argindex + 2, filename := argument.val, props := props }
            | .error e => .threw e -- `catch (const string &message)` is for another type
    else finish command (option :: args) s

/-- `ParseCommandLine`. -/
def parseCommandLine (files : Files) (argv : List CString) (props : Properties) : ParseEnd :=
  parseLoop files argv.head? argv.tail { argindex := 1, filename := [], props := props }

/-! ### The grammar -/

/-- The options that set a property, and the property each sets. -/
def settings : List (Str × Str) :=
  [(str "-threads", threadCountProperty), (str "-db", dbNameProperty),
    (str "-host", str "host"), (str "-port", str "port"), (str "-slaves", str "slaves")]

/-- The options of the grammar. -/
def optionNames : List Str := settings.map Prod.fst ++ [str "-P"]

/-- Pairs of an option and its argument, as they stand in `argv`. -/
def flat (pairs : List (CString × CString)) : List CString :=
  pairs.flatMap fun pair => [pair.1, pair.2]

/-- A known option, with an argument that opens when it is a file. -/
def ValidPair (files : Files) (pair : CString × CString) : Prop :=
  pair.1.val ∈ optionNames ∧ (pair.1.val = str "-P" → (files pair.2).isSome)

/-- The arguments are a non-empty sequence of valid pairs. -/
def Accepted (files : Files) (args : List CString) (pairs : List (CString × CString)) : Prop :=
  args = flat pairs ∧ pairs ≠ [] ∧ ∀ pair ∈ pairs, ValidPair files pair

/-- The argument of the last `-P`, or the empty string. -/
def lastFile (pairs : List (CString × CString)) : Str :=
  ((pairs.filter fun pair => pair.1.val = str "-P").getLast?.map fun pair => pair.2.val).getD []

/-- A pair applied to the properties: a file is loaded, any other option sets its
    property. -/
def applyPair (files : Files) (props : Properties) (pair : CString × CString) : Properties :=
  if pair.1.val = str "-P" then
    match load props (ifstream files pair.2) with
    | .ok (_, loaded) => loaded
    | .error _ => props
  else setProperty props ((settings.lookup pair.1.val).getD []) pair.2.val

/-- **The function accepts its grammar and fails cleanly** on these arguments: a
    non-empty sequence of valid pairs is applied from left to right, and anything
    else ends with a message and status 0. -/
def ParsesCleanly (files : Files) (argv : List CString) (props : Properties) : Prop :=
  (∀ pairs, Accepted files argv.tail pairs →
    parseCommandLine files argv props =
      .returned (lastFile pairs) (pairs.foldl (applyPair files) props)) ∧
  ((¬∃ pairs, Accepted files argv.tail pairs) →
    ∃ message, message ≠ [] ∧ parseCommandLine files argv props = .exited 0 message)

/-- Valid pairs lead up to a `-P` whose file does not open. -/
def ReachesUnopenable (files : Files) (args : List CString) : Prop :=
  ∃ (pairs : List (CString × CString)) (option file : CString) (rest : List CString),
    args = flat pairs ++ option :: file :: rest ∧ (∀ pair ∈ pairs, ValidPair files pair) ∧
      option.val = str "-P" ∧ files file = none

/-! ### One pair -/

/-- What a valid pair makes of the locals. -/
def ParseState.after (files : Files) (s : ParseState) (pair : CString × CString) : ParseState :=
  { argindex := s.argindex + 2
    filename := if pair.1.val = str "-P" then pair.2.val else s.filename
    props := applyPair files s.props pair }

theorem lookup_settings (name : Str) :
    settings.lookup name =
      if name = str "-threads" then some threadCountProperty
      else if name = str "-db" then some dbNameProperty
      else if name = str "-host" then some (str "host")
      else if name = str "-port" then some (str "port")
      else if name = str "-slaves" then some (str "slaves")
      else none := by
  simp only [settings, NvmDb.lookup_cons_pair, List.lookup_nil]

/-- The comparisons of the loop look an option up among those of the grammar. -/
theorem branchOf_eq (option : CString) :
    branchOf option =
      if option.val = str "-P" then some .loadFile
      else (settings.lookup option.val).map Branch.set := by
  rw [branchOf, lookup_settings]
  by_cases hfile : option.val = str "-P"
  · rw [hfile]
    decide +kernel
  · simp only [hfile, if_false]
    split_ifs <;> rfl

theorem mem_optionNames {name : Str} :
    name ∈ optionNames ↔ name = str "-P" ∨ (settings.lookup name).isSome := by
  rw [optionNames, List.mem_append, List.mem_singleton, or_comm, List.lookup_isSome_iff]
  simp

theorem strStartWith_of_mem {option : CString} (h : option.val ∈ optionNames) :
    strStartWith option (str "-") = true := by
  have hall : ∀ name ∈ optionNames, name.take (str "-").length = str "-" := by decide +kernel
  exact decide_eq_true (hall _ h)

theorem branchOf_isSome {option : CString} :
    (branchOf option).isSome ↔ option.val ∈ optionNames := by
  rw [branchOf_eq, mem_optionNames]
  by_cases hfile : option.val = str "-P" <;> simp [hfile]

theorem load_ifstream {files : Files} {path : CString} (p : Properties)
    (h : (files path).isSome) : ∃ q, load p (ifstream files path) = .ok (true, q) := by
  obtain ⟨⟨content, readFails⟩, hfile⟩ := Option.isSome_iff_exists.mp h
  refine ⟨_, load_eq p ?_ ?_ ?_⟩ <;> rw [ifstream, hfile]

section Loop

variable {files : Files} {command : Option CString} {s : ParseState}

/-- **A valid pair** is applied, and the loop goes on after it. -/
theorem parseLoop_pair {pair : CString × CString} (h : ValidPair files pair)
    (args : List CString) :
    parseLoop files command (pair.1 :: pair.2 :: args) s =
      parseLoop files command args (s.after files pair) := by
  obtain ⟨hname, hopens⟩ := h
  have hdash := strStartWith_of_mem hname
  by_cases hfile : pair.1.val = str "-P"
  · obtain ⟨q, hload⟩ := load_ifstream s.props (hopens hfile)
    have hbranch : branchOf pair.1 = some .loadFile := by rw [branchOf_eq, if_pos hfile]
    simp only [parseLoop, hdash, hbranch, hload, if_true, ParseState.after, applyPair, if_pos hfile]
  · obtain ⟨property, hproperty⟩ := Option.isSome_iff_exists.mp
      ((mem_optionNames.mp hname).resolve_left hfile)
    have hbranch : branchOf pair.1 = some (.set property) := by
      rw [branchOf_eq, if_neg hfile, hproperty]
      rfl
    simp only [parseLoop, hdash, hbranch, if_true, ParseState.after, applyPair, if_neg hfile,
      hproperty, Option.getD_some]

/-- **A run of valid pairs** is applied from left to right. -/
theorem parseLoop_pairs {pairs : List (CString × CString)}
    (h : ∀ pair ∈ pairs, ValidPair files pair) (args : List CString) :
    parseLoop files command (flat pairs ++ args) s =
      parseLoop files command args (pairs.foldl (ParseState.after files) s) := by
  induction pairs generalizing s with
  | nil => rfl
  | cons pair pairs ih =>
    have hrest : ∀ p ∈ pairs, ValidPair files p := fun p hp => h p (List.mem_cons_of_mem pair hp)
    show parseLoop files command (pair.1 :: pair.2 :: (flat pairs ++ args)) s = _
    rw [parseLoop_pair (h pair List.mem_cons_self), ih hrest, List.foldl_cons]

/-- A `-P` whose file does not open. -/
theorem parseLoop_unopenable {option file : CString} (hoption : option.val = str "-P")
    (hfile : files file = none) (args : List CString) :
    parseLoop files command (option :: file :: args) s =
      .threw (.exception (str "File not open!")) := by
  have hdash := strStartWith_of_mem (mem_optionNames.mpr (.inl hoption))
  have hbranch : branchOf option = some .loadFile := by rw [branchOf_eq, if_pos hoption]
  have hload : load s.props (ifstream files file) = .error (.exception (str "File not open!")) := by
    rw [ifstream, hfile, load, if_neg Bool.false_ne_true]
  simp only [parseLoop, hdash, hbranch, hload, if_true]

/-- No valid pair stands first. -/
def Stops (files : Files) (args : List CString) : Prop :=
  ∀ (pair : CString × CString) (rest : List CString), args = pair.1 :: pair.2 :: rest →
    ¬ValidPair files pair

theorem usageMessage_ne_nil (command : Str) : usageMessage command ≠ [] := by
  have husage : str "Usage: " ≠ [] := by decide +kernel
  simp only [usageMessage, List.append_assoc]
  exact List.append_ne_nil_of_left_ne_nil husage _

/-- **What stops the loop** ends the program with a message, unless it is a `-P`
    whose file does not open. -/
theorem parseLoop_stop {command : CString} {args : List CString} (hstop : Stops files args)
    (hne : args ≠ []) :
    (∃ message, message ≠ [] ∧ parseLoop files (some command) args s = .exited 0 message) ∨
      ∃ (option file : CString) (rest : List CString), args = option :: file :: rest ∧
        option.val = str "-P" ∧ files file = none := by
  obtain ⟨option, args, rfl⟩ := List.exists_cons_of_ne_nil hne
  have husage : ∃ message, message ≠ [] ∧ usageExit (some command) = .exited 0 message :=
    ⟨_, usageMessage_ne_nil _, rfl⟩
  by_cases hdash : strStartWith option (str "-") = true
  · cases hbranch : branchOf option with
    | none =>
      have hunknown : str "Unknown option '" ≠ [] := by decide +kernel
      left
      simp only [parseLoop, hdash, hbranch, if_true, List.append_assoc]
      exact ⟨_, List.append_ne_nil_of_left_ne_nil hunknown _, rfl⟩
    | some branch =>
      have hname : option.val ∈ optionNames := branchOf_isSome.mp (by rw [hbranch]; rfl)
      cases args with
      | nil =>
        left
        simpa only [parseLoop, hdash, hbranch, if_true] using husage
      | cons argument args =>
        have hinvalid := hstop (option, argument) args rfl
        have hunopenable : option.val = str "-P" ∧ ¬(files argument).isSome := by
          by_contra hnot
          exact hinvalid ⟨hname, fun hfile => by_contra fun hclosed => hnot ⟨hfile, hclosed⟩⟩
        exact .inr ⟨option, argument, args, rfl, hunopenable.1,
          Option.not_isSome_iff_eq_none.mp hunopenable.2⟩
  · left
    simpa only [parseLoop, if_neg hdash, finish, if_pos (Or.inr hne)] using husage

end Loop

/-! ### All arguments -/

/-- **Every list of arguments** is a run of valid pairs and something that stops it. -/
theorem exists_leading (files : Files) (args : List CString) :
    ∃ pairs rest, args = flat pairs ++ rest ∧ (∀ pair ∈ pairs, ValidPair files pair) ∧
      Stops files rest := by
  induction hn : args.length using Nat.strong_induction_on generalizing args with
  | _ n ih =>
    by_cases hstop : Stops files args
    · exact ⟨[], args, rfl, nofun, hstop⟩
    · have hpair : ∃ (pair : CString × CString) (rest : List CString),
          args = pair.1 :: pair.2 :: rest ∧ ValidPair files pair := by
        by_contra hnone
        exact hstop fun pair rest hargs hvalid => hnone ⟨pair, rest, hargs, hvalid⟩
      obtain ⟨pair, args, rfl, hvalid⟩ := hpair
      have hlt : args.length < n := by
        rw [← hn, List.length_cons, List.length_cons]
        omega
      obtain ⟨pairs, rest, rfl, hpairs, hrest⟩ := ih _ hlt args rfl
      refine ⟨pair :: pairs, rest, rfl, ?_, hrest⟩
      intro p hp
      rcases List.mem_cons.mp hp with rfl | hp
      · exact hvalid
      · exact hpairs p hp

/-- The locals after a run of pairs. -/
theorem foldl_after (files : Files) (pairs : List (CString × CString)) (s : ParseState) :
    (pairs.foldl (ParseState.after files) s).argindex = s.argindex + 2 * pairs.length ∧
      (pairs.foldl (ParseState.after files) s).props = pairs.foldl (applyPair files) s.props := by
  induction pairs generalizing s with
  | nil => exact ⟨rfl, rfl⟩
  | cons pair pairs ih =>
    obtain ⟨hargindex, hprops⟩ := ih (s.after files pair)
    have hafter : (s.after files pair).argindex = s.argindex + 2 := rfl
    refine ⟨?_, hprops⟩
    rw [List.foldl_cons, hargindex, hafter, List.length_cons]
    omega

theorem filename_foldl_after (files : Files) (pairs : List (CString × CString)) (s : ParseState) :
    (pairs.foldl (ParseState.after files) s).filename =
      ((pairs.filter fun pair => pair.1.val = str "-P").getLast?.map fun pair => pair.2.val).getD
        s.filename := by
  induction pairs generalizing s with
  | nil => rfl
  | cons pair pairs ih =>
    rw [List.foldl_cons, ih, ParseState.after]
    by_cases hfile : pair.1.val = str "-P"
    · rw [List.filter_cons_of_pos (by simpa using hfile), List.getLast?_cons, if_pos hfile]
      cases (pairs.filter fun pair => pair.1.val = str "-P").getLast? <;> rfl
    · rw [List.filter_cons_of_neg (by simpa using hfile), if_neg hfile]

/-- A sequence of valid pairs that is the whole command line. -/
theorem parseLoop_accepted {files : Files} {command : Option CString}
    {pairs : List (CString × CString)} (hne : pairs ≠ [])
    (hvalid : ∀ pair ∈ pairs, ValidPair files pair) (props : Properties) :
    parseLoop files command (flat pairs) { argindex := 1, filename := [], props := props } =
      .returned (lastFile pairs) (pairs.foldl (applyPair files) props) := by
  obtain ⟨hargindex, hprops⟩ := foldl_after files pairs ⟨1, [], props⟩
  have hlen := List.length_pos_iff.mpr hne
  have hread : ¬((pairs.foldl (ParseState.after files) ⟨1, [], props⟩).argindex = 1 ∨
      ([] : List CString) ≠ []) := by
    rw [hargindex]
    simp only [ne_eq, not_true_eq_false, or_false]
    omega
  rw [← List.append_nil (flat pairs), parseLoop_pairs hvalid, parseLoop, finish, if_neg hread,
    hprops, filename_foldl_after]
  rfl

/-- Valid pairs that lead up to a `-P` whose file does not open. -/
theorem parseCommandLine_unopenable {files : Files} {argv : List CString}
    (h : ReachesUnopenable files argv.tail) (props : Properties) :
    parseCommandLine files argv props = .threw (.exception (str "File not open!")) := by
  obtain ⟨pairs, option, file, rest, hargs, hvalid, hoption, hfile⟩ := h
  rw [parseCommandLine, hargs, parseLoop_pairs hvalid, parseLoop_unopenable hoption hfile]

/-- A command line that is not of the grammar, and does not lead up to such a `-P`. -/
theorem parseCommandLine_rejected {files : Files} {command : CString} {args : List CString}
    (hnone : ¬∃ pairs, Accepted files args pairs) (hopens : ¬ReachesUnopenable files args)
    (props : Properties) :
    ∃ message, message ≠ [] ∧
      parseCommandLine files (command :: args) props = .exited 0 message := by
  obtain ⟨pairs, rest, rfl, hvalid, hstop⟩ := exists_leading files args
  rw [parseCommandLine, List.tail_cons, List.head?_cons, parseLoop_pairs hvalid]
  by_cases hrest : rest = []
  · -- the pairs are the whole command line, so there are none
    obtain rfl : pairs = [] := by
      by_contra hpairs
      exact hnone ⟨pairs, by rw [hrest, List.append_nil], hpairs, hvalid⟩
    subst hrest
    exact ⟨_, usageMessage_ne_nil command.val, rfl⟩
  · rcases parseLoop_stop hstop hrest with hexit | ⟨option, file, rest, rfl, hoption, hfile⟩
    · exact hexit
    · exact absurd ⟨pairs, option, file, rest, rfl, hvalid, hoption, hfile⟩ hopens

/-- A command line that is parsed cleanly returns or exits. -/
theorem ParsesCleanly.ends {files : Files} {argv : List CString} {props : Properties}
    (h : ParsesCleanly files argv props) :
    (∃ filename q, parseCommandLine files argv props = .returned filename q) ∨
      ∃ message, parseCommandLine files argv props = .exited 0 message := by
  by_cases haccepted : ∃ pairs, Accepted files argv.tail pairs
  · obtain ⟨pairs, hpairs⟩ := haccepted
    exact .inl ⟨_, _, h.1 pairs hpairs⟩
  · obtain ⟨message, -, hexit⟩ := h.2 haccepted
    exact .inr ⟨message, hexit⟩

/-- **When the command line is parsed cleanly**: there is an `argv[0]` to print, and
    valid pairs do not lead up to a `-P` whose file does not open. -/
theorem parsesCleanly_iff (files : Files) (argv : List CString) (props : Properties) :
    ParsesCleanly files argv props ↔ argv ≠ [] ∧ ¬ReachesUnopenable files argv.tail := by
  constructor
  · intro h
    have hends := h.ends
    constructor
    · rintro rfl
      rcases hends with ⟨_, _, hend⟩ | ⟨_, hend⟩ <;> cases hend
    · intro hreaches
      rw [parseCommandLine_unopenable hreaches] at hends
      rcases hends with ⟨_, _, hend⟩ | ⟨_, hend⟩ <;> cases hend
  · rintro ⟨hne, hopens⟩
    obtain ⟨command, args, rfl⟩ := List.exists_cons_of_ne_nil hne
    rw [List.tail_cons] at hopens
    constructor
    · rintro pairs ⟨hargs, hpairs, hvalid⟩
      rw [List.tail_cons] at hargs
      rw [parseCommandLine, List.tail_cons, hargs]
      exact parseLoop_accepted hpairs hvalid props
    · intro hnone
      exact parseCommandLine_rejected hnone hopens props

/-- `ycsbc -P w`. -/
def loadMissing : List CString :=
  [⟨lit ['y', 'c', 's', 'b', 'c'], by decide⟩, ⟨lit ['-', 'P'], by decide⟩,
    ⟨lit ['w'], by decide⟩]

/-- **No such file**: the exception of `Load` leaves the function. -/
theorem not_parsesCleanly_loadMissing :
    parseCommandLine (fun _ => none) loadMissing (fun _ => none) =
        .threw (.exception (str "File not open!")) ∧
      ¬∀ (files : Files) (argv : List CString) (props : Properties),
        ParsesCleanly files argv props := by
  have hthrew : parseCommandLine (fun _ => none) loadMissing (fun _ => none) =
      .threw (.exception (str "File not open!")) :=
    parseLoop_unopenable (by decide +kernel) rfl []
  refine ⟨hthrew, fun h => ?_⟩
  obtain ⟨-, hexits⟩ := h (fun _ => none) loadMissing (fun _ => none)
  have hnone : ¬∃ pairs, Accepted (fun _ => none) loadMissing.tail pairs := by
    rintro ⟨pairs, haccepted⟩
    have hreturned := (h (fun _ => none) loadMissing (fun _ => none)).1 pairs haccepted
    rw [hthrew] at hreturned
    cases hreturned
  obtain ⟨message, -, hexit⟩ := hexits hnone
  rw [hthrew] at hexit
  cases hexit

end NvrecYcsb.CommandLine
