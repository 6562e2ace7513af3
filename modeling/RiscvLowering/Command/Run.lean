import RiscvLowering.Command.Args
import RiscvLowering.Command.Demo
import RiscvLowering.Command.Files
import RiscvLowering.Lowering.Function
import RiscvLowering.Ssa.Decode
import RiscvLowering.Ssa.Encode

/-!
# Running commands

A command reads files, prints, and ends: well, with an error, or with the writing of one file. All
that it prints before an error stays printed, but no code is printed or written unless the code of
every input could be made.
-/

namespace RiscvLowering

/-- Why a command fails. -/
inductive CommandError where
  | file (e : FileError)
  /-- A file holds no sound function. -/
  | load (path : String) (e : LoadError)
  /-- The file of options holds none. -/
  | options (fault : Json.Fault)
  | lowering (func : String) (e : LoweringError)
  /-- Lowering left gaps, which are not allowed. -/
  | gaps (func : String) (gaps : List Gap)
  | unknownDemo (name : String)
deriving DecidableEq

namespace CommandError

/-- What is said of a document that cannot be read. A fault in what the document says has a wording
of its own. A fault in how it is written is told by its kind only: the two texts here stand for all
that could be said of the place in the text and of what was expected there. -/
def faultText (fault : Json.Fault) : String :=
  match fault, fault.message? with
  | _, some m => m
  | .truncated, none => "the text ends too early"
  | _, none => "the text is malformed"

/-- The names of the demonstrations, as errors list them. -/
def demoNames : String := ", ".intercalate (Demo.all.map (·.1))

def message : CommandError → String
  | file e => e.message
  | load path (.document fault) => path ++ ": invalid JSON: " ++ faultText fault
  | load path (.integrity fault) => path ++ ": " ++ fault.message
  | options fault => faultText fault
  | lowering func e => func ++ ": " ++ e.message
  | gaps func skipped =>
    func ++ ": " ++ skipped.length.repr ++ " unimplemented lowering(s)" ++
      String.join (skipped.map fun g => "\n  " ++ g.text) ++
      "\n(use --allow-gaps to write the output anyway)"
  | unknownDemo name => "Unknown demo: " ++ name ++ " (available: " ++ demoNames ++ ")"

end CommandError

/-- How a command ends, after what it has printed. -/
inductive Ending where
  | done
  | failed (e : CommandError)
  /-- Writes a text to a file, which may fail. -/
  | write (path text : String)
deriving DecidableEq

structure Run where
  printed : String
  ending : Ending
deriving DecidableEq

/-- What a command itself gives to see: its exit code, what it prints, and the error that it ends
with. The log of lowering is no part of it, although it is written where errors are: there, by
default, a warning tells of each gap, allowed or not. -/
structure Report where
  code : Nat
  stdout : String
  /-- The error, if there is one, without the log. -/
  stderr : String
deriving DecidableEq

namespace Run

/-- The run of a computation that prints nothing before it ends. -/
def ofExcept (r : Except CommandError Run) : Run :=
  match r with
  | .ok run => run
  | .error e => ⟨"", .failed e⟩

/-- The run with something printed before it. -/
def after (printed : String) (r : Run) : Run := { r with printed := printed ++ r.printed }

/-- The error that ends a run, when `written` tells how the writing of its file went. -/
def error? (r : Run) (written : Except FileError Unit) : Option CommandError :=
  match r.ending, written with
  | .failed e, _ => some e
  | .write _ _, .error e => some (.file e)
  | .write _ _, .ok () | .done, _ => none

/-- What a run gives to see, apart from the log, when `written` tells how the writing of its file
went. -/
def report (r : Run) (written : Except FileError Unit) : Report :=
  match r.error? written with
  | some e => ⟨1, r.printed, "Error: " ++ e.message ++ "\n"⟩
  | none =>
    match r.ending with
    | .write path _ => ⟨0, r.printed ++ "Assembly written to: " ++ path ++ "\n", ""⟩
    | _ => ⟨0, r.printed, ""⟩

end Run

namespace Command

/-- The version of the program, as it tells it. -/
def versionText : String := "rvssa 0.1.0\n"

/-- How a command gets the text of a file. -/
abbrev ReadFile := String → Except FileError String

def readText (read : ReadFile) (path : String) : Except CommandError String :=
  (read path).mapError .file

def readFunc (read : ReadFile) (path : String) : Except CommandError Func := do
  let text ← readText read path
  (Func.load text).mapError (.load path)

/-- The options of the file that holds them, as the flags change them. -/
def readOptions (read : ReadFile) (flags : LowerFlags) : Except CommandError Options := do
  let options ← match flags.options with
    | none => pure {}
    | some path => (Options.ofText (← readText read path)).mapError .options
  return if flags.noBaseCheck then { options with checkBaseReg := false } else options

def render (flags : LowerFlags) (out : Output) : String :=
  if flags.listing then out.listing flags.lines else out.name ++ ":\n" ++ out.plain

/-- Lowers a function to text, unless it has gaps that are not allowed. -/
def lowerText (options : Options) (flags : LowerFlags) (f : Func) : Except CommandError String := do
  let out ← (f.lower options).result.mapError (.lowering f.name)
  if out.isComplete ∨ flags.allowGaps then return render flags out
  else throw (.gaps out.name out.gaps)

/-- Prints a text, or writes it to the file that it shall go to. -/
def deliver (flags : LowerFlags) (text : String) : Run :=
  match flags.output with
  | some path => ⟨"", .write path text⟩
  | none => ⟨text, .done⟩

/-- Lowers functions and delivers the text of all of them. -/
def lowerFuncs (read : ReadFile) (flags : LowerFlags) (funcs : List Func) : Run :=
  .ofExcept do
    let options ← readOptions read flags
    let texts ← funcs.mapM (lowerText options flags)
    return deliver flags (String.join texts)

def runLower (read : ReadFile) (inputs : List String) (flags : LowerFlags) : Run :=
  match inputs.mapM (readFunc read) with
  | .ok funcs => lowerFuncs read flags funcs
  | .error e => ⟨"", .failed e⟩

/-- What is printed of a function that was checked. -/
def checkText (path : String) (print : Bool) (f : Func) : String :=
  path ++ ": function '" ++ f.name ++ "' ok (" ++ f.blocks.length.repr ++ " blocks, " ++
    f.values.length.repr ++ " values)\n" ++ (if print then f.text else "")

/-- Checks files up to the first that holds no sound function. -/
def runCheck (read : ReadFile) (print : Bool) : List String → Run
  | [] => ⟨"", .done⟩
  | path :: paths =>
    match readFunc read path with
    | .ok f => (runCheck read print paths).after (checkText path print f)
    | .error e => ⟨"", .failed e⟩

def runDemo (read : ReadFile) (name : String) (json : Bool) (flags : LowerFlags) : Run :=
  match Demo.all.lookup name with
  | none => ⟨"", .failed (.unknownDemo name)⟩
  | some f =>
    if json then ⟨f.toJson.pretty ++ "\n", .done⟩
    else (lowerFuncs read flags [f]).after ("SSA:\n" ++ f.text ++ "\n")

def run (read : ReadFile) : Command → Run
  | version => ⟨versionText, .done⟩
  | lower inputs flags => runLower read inputs flags
  | check inputs print => runCheck read print inputs
  | demo name json flags => runDemo read name json flags

/-- The files that a command may read. -/
def reads : Command → List String
  | version => []
  | lower inputs flags => inputs ++ flags.options.toList
  | check inputs _ => inputs
  | demo _ _ flags => flags.options.toList

end Command

/-- Runs a command in a directory and leaves the directory as the command makes it. -/
def Directory.run (d : Directory) (c : Command) : Run × Report × Directory :=
  let r := c.run d.read
  match r.ending with
  | .write path text =>
    match d.write path text with
    | .ok after => (r, r.report (.ok ()), after)
    | .error e => (r, r.report (.error e), d)
  | _ => (r, r.report (.ok ()), d)

end RiscvLowering
