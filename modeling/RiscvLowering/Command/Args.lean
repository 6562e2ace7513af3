/-!
# The command line

The arguments of the program are read into a command. Options may stand anywhere behind the name of
the command, joined with their values or apart from them; `--` ends them.
-/

namespace RiscvLowering

/-- How the commands that lower do it. -/
structure LowerFlags where
  /-- The file that the code goes to. -/
  output : Option String := none
  listing : Bool := false
  lines : Bool := false
  /-- The file that holds the options of lowering. -/
  options : Option String := none
  /-- Whether addresses may be based on any register. -/
  noBaseCheck : Bool := false
  /-- Whether code with gaps may be written. -/
  allowGaps : Bool := false
deriving DecidableEq

/-- What the program is asked to do. -/
inductive Command where
  | version
  /-- To lower the functions of some files. -/
  | lower (inputs : List String) (flags : LowerFlags)
  /-- To load the functions of some files, and to print them if asked. -/
  | check (inputs : List String) (print : Bool)
  /-- To lower a function that is built in, or to print its document. -/
  | demo (name : String) (json : Bool) (flags : LowerFlags)
deriving DecidableEq

/-- Why arguments make no command. -/
inductive UsageError where
  | noCommand
  | unknownCommand (name : String)
  | unknownOption (name : String)
  | missingValue (option : String)
  | unwantedValue (option : String)
  | repeatedOption (option : String)
  | emptyPath
  | noInput
  | extraArgument (arg : String)
  /-- Lines are asked for without a listing. -/
  | linesWithoutListing
deriving DecidableEq

def UsageError.message : UsageError → String
  | noCommand => "a command is needed: lower, check or demo"
  | unknownCommand name => "unknown command '" ++ name ++ "'"
  | unknownOption name => "unknown option '" ++ name ++ "'"
  | missingValue option => "option '" ++ option ++ "' needs a value"
  | unwantedValue option => "option '" ++ option ++ "' takes no value"
  | repeatedOption option => "option '" ++ option ++ "' is given twice"
  | emptyPath => "a path is empty"
  | noInput => "an input file is needed"
  | extraArgument arg => "unexpected argument '" ++ arg ++ "'"
  | linesWithoutListing => "option '--lines' needs '--listing'"

/-! ## Arguments by shape -/

/-- An argument before the end of options, by its shape. -/
inductive ArgShape where
  | endOfOptions
  /-- A long option, with the value joined to it by `=`. -/
  | long (name : List Char) (value : Option (List Char))
  /-- Short options, or one with its value behind it. -/
  | short (letters : List Char)
  /-- No option; a dash alone is none either. -/
  | plain
deriving DecidableEq

def ArgShape.of (arg : String) : ArgShape :=
  match arg.toList with
  | ['-', '-'] => .endOfOptions
  | '-' :: '-' :: cs =>
    .long (cs.takeWhile (· ≠ '='))
      (match cs.dropWhile (· ≠ '=') with
        | [] => none
        | _ :: value => some value)
  | '-' :: c :: cs => .short (c :: cs)
  | _ => .plain

/-- The options of a command. -/
structure OptionTable where
  /-- The long names of the options without value. -/
  flags : List String
  /-- The long names of the options with a value, each with its letter if it has one. -/
  valued : List (String × Option Char)

/-- The arguments of a command as far as they are read. -/
structure ArgScan where
  flags : List String := []
  values : List (String × String) := []
  plain : List String := []
  /-- The option that the next argument is the value of. -/
  waiting : Option String := none

namespace ArgScan

/-- Takes an option without value. Only verbosity may be given again. -/
def addFlag (s : ArgScan) (name : String) : Except UsageError ArgScan :=
  if name = "verbose" then .ok s
  else if name ∈ s.flags then .error (.repeatedOption name)
  else .ok { s with flags := name :: s.flags }

/-- Takes an option with its value, which is a path. -/
def addValue (s : ArgScan) (name value : String) : Except UsageError ArgScan :=
  if value = "" then .error .emptyPath
  else if (s.values.lookup name).isSome then .error (.repeatedOption name)
  else .ok { s with values := (name, value) :: s.values, waiting := none }

def addPlain (s : ArgScan) (arg : String) : ArgScan := { s with plain := s.plain ++ [arg] }

def addLong (t : OptionTable) (s : ArgScan) (name : String) (value : Option String) :
    Except UsageError ArgScan :=
  if name ∈ t.flags then
    match value with
    | none => s.addFlag name
    | some _ => .error (.unwantedValue name)
  else if (t.valued.lookup name).isSome then
    match value with
    -- the value is the next argument
    | none => .ok { s with waiting := some name }
    | some v => s.addValue name v
  else .error (.unknownOption name)

/-- Takes short options: the first one with a value takes what is behind it. -/
def addShort (t : OptionTable) (s : ArgScan) : List Char → Except UsageError ArgScan
  | [] => .ok s
  | c :: cs =>
    -- how often verbosity is asked for changes nothing but the log, so it is not counted
    if c = 'v' then s.addShort t cs
    else
      match t.valued.find? (·.2 = some c) with
      | none => .error (.unknownOption (String.singleton c))
      | some (name, _) =>
        match cs with
        | [] => .ok { s with waiting := some name }
        -- a sign of equality before the value is no part of it
        | '=' :: value => s.addValue name (String.ofList value)
        | value => s.addValue name (String.ofList value)

/-- Takes the arguments of a command, one after the other. -/
def scan (t : OptionTable) (s : ArgScan) : List String → Except UsageError ArgScan
  | [] =>
    match s.waiting with
    | none => .ok s
    | some name => .error (.missingValue name)
  | arg :: args =>
    match s.waiting, ArgShape.of arg with
    | some name, .plain => do (← s.addValue name arg).scan t args
    -- what looks like an option is never the value of one
    | some name, _ => .error (.missingValue name)
    | none, .plain => (s.addPlain arg).scan t args
    -- from here on nothing is an option
    | none, .endOfOptions => .ok { s with plain := s.plain ++ args }
    | none, .long name value => do
      (← s.addLong t (String.ofList name) (value.map String.ofList)).scan t args
    | none, .short letters => do (← s.addShort t letters).scan t args

def paths (s : ArgScan) : Except UsageError (List String) :=
  if "" ∈ s.plain then .error .emptyPath else .ok s.plain

def lowerFlags (s : ArgScan) : Except UsageError LowerFlags :=
  if "lines" ∈ s.flags ∧ "listing" ∉ s.flags then .error .linesWithoutListing
  else .ok {
    output := s.values.lookup "output"
    listing := "listing" ∈ s.flags
    lines := "lines" ∈ s.flags
    options := s.values.lookup "options"
    noBaseCheck := "no-base-check" ∈ s.flags
    allowGaps := "allow-gaps" ∈ s.flags }

end ArgScan

/-! ## Commands -/

namespace Command

/-- The options of the commands that lower, besides their own flags. -/
def lowerOptions (own : List String) : OptionTable where
  flags := own ++ ["verbose", "listing", "lines", "no-base-check", "allow-gaps"]
  valued := [("output", some 'o'), ("options", none)]

def lowerOfArgs (args : List String) : Except UsageError Command := do
  let s ← ({} : ArgScan).scan (lowerOptions []) args
  let inputs ← s.paths
  if inputs = [] then throw .noInput
  return .lower inputs (← s.lowerFlags)

def checkOfArgs (args : List String) : Except UsageError Command := do
  let s ← ({} : ArgScan).scan ⟨["verbose", "print"], []⟩ args
  return .check (← s.paths) ("print" ∈ s.flags)

/-- The demonstration that runs if none is named. -/
def defaultDemo : String := "exit"

def demoOfArgs (args : List String) : Except UsageError Command := do
  let s ← ({} : ArgScan).scan (lowerOptions ["json"]) args
  -- at most one demonstration is run
  let name ← match s.plain with
    | [] => pure defaultDemo
    | [name] => pure name
    | _ :: extra :: _ => throw (.extraArgument extra)
  return .demo name ("json" ∈ s.flags) (← s.lowerFlags)

/-- What short options before the name of a command ask for: `none` if nothing but verbosity. -/
def ofLetters : List Char → Except UsageError (Option Command)
  | [] => .ok none
  | c :: cs =>
    if c = 'v' then ofLetters cs
    else if c = 'V' then .ok (some .version)
    else .error (.unknownOption (String.singleton c))

/-- The command of the arguments of the program. -/
def ofArgs : List String → Except UsageError Command
  | [] => .error .noCommand
  | arg :: args =>
    match ArgShape.of arg with
    | .plain =>
      if arg = "lower" then lowerOfArgs args
      else if arg = "check" then checkOfArgs args
      else if arg = "demo" then demoOfArgs args
      else .error (.unknownCommand arg)
    | .endOfOptions => .error .noCommand
    | .long name value =>
      -- before the name of a command no option has a value
      if value.isSome then .error (.unwantedValue arg)
      else if name = "version".toList then .ok .version
      else if name = "verbose".toList then ofArgs args
      else .error (.unknownOption arg)
    | .short letters =>
      match ofLetters letters with
      | .error e => .error e
      | .ok (some c) => .ok c
      | .ok none => ofArgs args

end Command

end RiscvLowering
