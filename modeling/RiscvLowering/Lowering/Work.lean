import RiscvLowering.Lowering.Operand
import RiscvLowering.Lowering.Session

/-!
# Work on sessions

What lowering does, it does as it comes to it: it looks something up, emits, records, speaks, looks
up more. An error ends the work wherever it has got to, and what was done until then stays done.
-/

namespace RiscvLowering

/-- Work on a session, which gives an `α` unless an error ends it. -/
abbrev Work (α : Type) := ExceptT LoweringError (StateM Session) α

namespace Work

/-- The session as the work leaves it, and how the work ends. -/
def on {α : Type} (m : Work α) (s : Session) : Session × Except LoweringError α :=
  -- the error is beside the session, not in its place
  (StateT.run (ExceptT.run m) s).swap

/-- The function that is lowered. -/
def func : Work Func := return (← get).func

def options : Work Options := return (← get).options

def setLine (line : Line) : Work Unit := modify (·.setLine line)

def say (m : Message) : Work Unit := modify (·.say m)

def note (n : Note) : Work Unit := say (.note n)

def emit (inst : Inst) : Work Unit := modify fun s => (s.emit inst).2

def emitBranch (inst : Inst) (target : BlockId) : Work Unit :=
  modify fun s => (s.emitBranch inst target).2

def mark (kind : MarkKind) (var : FrameVar) : Work Unit := modify (·.mark kind var)

/-- Records a gap, which is an error where the options say so. It is spoken of in any case. -/
def gap (g : Gap) : Work Unit := do
  say (.gap (← func).name g)
  if (← options).failOnGap then throw (.unimplemented g)
  modify (·.recordGap g)

end Work

/-- Records a gap. -/
def Session.gap (s : Session) (g : Gap) : Session × Except LoweringError Unit := (Work.gap g).on s

end RiscvLowering
