import RiscvLowering.Command.Run

/-!
# The program

Reads the files that a command asks for, runs the command, and does what comes of it.
-/

namespace RiscvLowering

/-- The error of a file as the system gave it. -/
def fileError : IO.Error → FileError
  | .noFileOrDirectory _ code details
  | .inappropriateType _ code details
  | .permissionDenied _ code details
  | .invalidArgument _ code details
  | .resourceExhausted _ code details
  | .alreadyExists _ code details
  | .noSuchThing _ code details
  | .resourceBusy code details
  | .hardwareFault code details
  | .otherError code details => .system details code.toNat
  | e => .system (toString e) 0

/-- The text of a file, or why it cannot be read. -/
def readFile (path : String) : IO (Except FileError String) := do
  try
    let file ← IO.FS.Handle.mk path .read
    match String.fromUTF8? (← file.readBinToEnd) with
    | some text => return .ok text
    | none => return .error .notText
  catch e => return .error (fileError e)

/-- Writes a file, or says why it cannot be written. -/
def writeFile (path text : String) : IO (Except FileError Unit) := do
  try
    IO.FS.writeFile path text
    return .ok ()
  catch e => return .error (fileError e)

/-- Runs the program and gives its exit code. -/
def program (args : List String) : IO UInt32 := do
  match Command.ofArgs args with
  | .error e =>
    IO.eprintln ("error: " ++ e.message)
    return 2
  | .ok command =>
    let texts ← command.reads.mapM fun path => do return (path, ← readFile path)
    let run := command.run fun path => (texts.lookup path).getD (.error .notFound)
    let written ← match run.ending with
      | .write path text => writeFile path text
      | _ => pure (.ok ())
    let report := run.report written
    IO.print report.stdout
    IO.eprint report.stderr
    return UInt32.ofNat report.code

end RiscvLowering

def main (args : List String) : IO UInt32 := RiscvLowering.program args
