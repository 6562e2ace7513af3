import RiscvLowering.Lowering.Log
import RiscvLowering.Lowering.Options
import RiscvLowering.Lowering.Output

/-!
# Sessions

A session is the lowering of one function under way: the code emitted so far with all that goes with
it.
-/

namespace RiscvLowering

structure Session where
  func : Func
  options : Options
  code : Code := #[]
  branches : Array PendingBranch := #[]
  starts : Array BlockStart := #[]
  gaps : Array Gap := #[]
  marks : Array Mark := #[]
  log : Array Message := #[]
  /-- The line of the instructions emitted next. -/
  line : Line := .unknown

namespace Session

def say (s : Session) (m : Message) : Session := { s with log := s.log.push m }

/-- Sets the line of the instructions emitted next. -/
def setLine (s : Session) (line : Line) : Session := { s with line }

/-- Starts a block at the end of the code. -/
def startBlock (s : Session) (block : BlockId) : Session :=
  { s with starts := s.starts.push ⟨block, s.code.size⟩ }

/-- Appends an instruction and gives its index. -/
def emit (s : Session) (inst : Inst) : Nat × Session :=
  let (index, code) := s.code.emit inst s.line
  (index, { s with code }.say (.emitted index inst))

/-- Appends an instruction that goes to a block and gives its index. -/
def emitBranch (s : Session) (inst : Inst) (target : BlockId) : Nat × Session :=
  let (index, s) := s.emit inst
  (index, { s with branches := s.branches.push ⟨index, target⟩ }.say (.pending index target))

/-- States something of the lifetime of a variable, at the next instruction. -/
def mark (s : Session) (kind : MarkKind) (var : FrameVar) : Session :=
  { s with marks := s.marks.push ⟨kind, var, s.code.size⟩ }

def recordGap (s : Session) (g : Gap) : Session := { s with gaps := s.gaps.push g }

/-- What has been lowered. -/
def finish (s : Session) : Output where
  name := s.func.name
  code := s.code.toList
  branches := s.branches.toList
  starts := s.starts.toList
  gaps := s.gaps.toList

end Session

end RiscvLowering
