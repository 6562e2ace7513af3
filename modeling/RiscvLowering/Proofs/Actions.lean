import RiscvLowering.Lowering.Terminator
import RiscvLowering.Lowering.Value

/-!
# Actions — lowering as a decision

To lower a value or the end of a block is work on a session, which looks something
up, acts, and may look up more. It can be told in another way: first all is looked
up, and what comes of it is a decision on a list of actions or an error; then the
actions are performed. A decision knows nothing of what was emitted before; only
when actions are performed do instructions get their indices.

That this is the same for every session is shown apart from it, in `Foresight`.

Main definitions:

* `Func.lowerValue`, `Func.lowerTerminator` — what is decided on.
* `Session.attempt` — what a decision does to a session.
-/

namespace RiscvLowering

/-- Something that lowering does. -/
inductive Action where
  /-- Emits an instruction that goes nowhere. -/
  | emit (inst : Inst)
  /-- Emits an instruction that goes to a block. -/
  | branch (inst : Inst) (target : BlockId)
  /-- Records a gap. -/
  | gap (gap : Gap)
  /-- States something of the lifetime of a variable, at the next instruction. -/
  | mark (kind : MarkKind) (var : FrameVar)
  /-- Leaves a remark in the log. -/
  | note (note : Note)
deriving DecidableEq

/-- The instruction that an action emits. -/
def Action.inst? : Action → Option Inst
  | emit inst | branch inst _ => some inst
  | gap _ | mark _ _ | note _ => none

namespace Session

def perform (s : Session) : Action → Session
  | .emit inst => (s.emit inst).2
  | .branch inst target => (s.emitBranch inst target).2
  | .gap g => { s with gaps := s.gaps.push g }.say (.gap s.func.name g)
  | .mark kind var => { s with marks := s.marks.push ⟨kind, var, s.code.size⟩ }
  | .note n => s.say (.note n)

/-- Performs what was decided on. A gap that is an error is still spoken of. -/
def attempt (s : Session) :
    Except LoweringError (List Action) → Session × Except LoweringError Unit
  | .ok actions => (actions.foldl perform s, .ok ())
  | .error (.unimplemented g) => (s.say (.gap s.func.name g), .error (.unimplemented g))
  | .error e => (s, .error e)

end Session

/-! ## Decisions -/

/-- Records a gap, which is an error where the options say so. -/
def Options.gap (opts : Options) (g : Gap) : Except LoweringError (List Action) :=
  if opts.failOnGap then .error (.unimplemented g) else .ok [.gap g]

namespace Value

/-- A marker speaks of the variable that it refers to. -/
def lowerMark (v : Value) (kind : MarkKind) : Except LoweringError (List Action) :=
  match v.aux with
  | .var var => .ok [.mark kind var]
  | _ => .error (.badAux v)

def lowerConst (v : Value) : Except LoweringError (List Action) := do
  let rd ← v.register
  return [.emit (.li rd v.auxInt)]

end Value

/-- Goes to the only successor. -/
def Block.lowerGoto (b : Block) (next : Option BlockId) : Except LoweringError (List Action) :=
  match b.succs with
  | [succ] =>
    if next = some succ then .ok [.note (.fallsThrough succ)] else .ok [.branch .jump succ]
  | _ => .error (.badSuccessors b 1)

/-- Branches to the successor that does not follow, or to one and jumps to the other. -/
def branchActions (cond : Cond) (rs1 rs2 : Reg) (yes no : BlockId) (next : Option BlockId) :
    List Action :=
  if next = some yes then
    [.note (.inverting cond yes), .branch (.branch cond.invert rs1 rs2) no]
  else if next = some no then [.branch (.branch cond rs1 rs2) yes]
  else [.branch (.branch cond rs1 rs2) yes, .branch .jump no]

namespace Func

def lowerPhi (f : Func) (v : Value) : Except LoweringError (List Action) := do
  if v.ty.isMemory then return []
  f.checkPhi v
  return []

/-- A copy is a move, unless both sides are one register. -/
def lowerCopy (f : Func) (v : Value) : Except LoweringError (List Action) := do
  if v.ty.isMemory then return []
  let rs ← f.argRegister v 0
  let rd ← v.register
  if rs = rd then return [.note (.copyElided rs rd)]
  if v.ty.isFloat then throw (.floatCopy v)
  return [.emit (.mov rd rs)]

/-- A reload reads the slot of the argument. -/
def lowerReload (f : Func) (opts : Options) (v : Value) : Except LoweringError (List Action) := do
  if v.ty.isFlags then return ← opts.gap ⟨"load flags", v.text⟩
  let width ← v.ty.width
  let addr ← f.slotAddress (← f.arg v 0)
  let rd ← v.register
  return [.emit (.load width rd addr)]

/-- A spill writes the slot of the value itself. -/
def lowerSpill (f : Func) (opts : Options) (v : Value) : Except LoweringError (List Action) := do
  if v.ty.isFlags then return ← opts.gap ⟨"store flags", v.text⟩
  let width ← v.ty.width
  let rs ← f.argRegister v 0
  let addr ← f.slotAddress v
  return [.emit (.store width rs addr)]

def lowerAlu (f : Func) (op : AluOp) (v : Value) : Except LoweringError (List Action) := do
  let rs1 ← f.argRegister v 0
  let rs2 ← f.argRegister v 1
  let rd ← v.register
  return [.emit (.alu op rd rs1 rs2)]

def lowerAluImm (f : Func) (op : AluImmOp) (v : Value) : Except LoweringError (List Action) := do
  let rs1 ← f.argRegister v 0
  let rd ← v.register
  return [.emit (.aluImm op rd rs1 v.auxInt)]

def lowerZeroTest (f : Func) (test : ZeroTest) (v : Value) :
    Except LoweringError (List Action) := do
  let rs ← f.argRegister v 0
  let rd ← v.register
  return [.emit (.zeroTest test rd rs)]

def lowerAddress (f : Func) (opts : Options) (v : Value) :
    Except LoweringError (List Action) := do
  let base ← v.baseRegister
  if opts.checkBaseReg then f.checkBase v base
  let addr ← v.address base
  let rd ← v.register
  return [.emit (.la rd addr)]

def lowerLoad (f : Func) (v : Value) : Except LoweringError (List Action) := do
  let width ← v.ty.width
  let base ← f.argRegister v 0
  let addr ← v.address base
  let rd ← v.register
  return [.emit (.load width rd addr)]

/-- A store is as wide as the value that it stores. -/
def lowerStore (f : Func) (v : Value) : Except LoweringError (List Action) := do
  let stored ← f.arg v 1
  let width ← stored.ty.width
  let base ← f.argRegister v 0
  let addr ← v.address base
  let rs ← stored.register
  return [.emit (.store width rs addr)]

/-- The process ends with the exit code in the argument register. -/
def lowerExit (f : Func) (v : Value) : Except LoweringError (List Action) := do
  let code ← f.argRegister v 0
  return [.emit (.mov .a0 code), .emit (.li .a7 exitCall), .emit .ecall]

/-- The actions that lower a value. They depend on the value, on its arguments and their slots, and
on the options, and on nothing else. -/
def lowerValue (f : Func) (opts : Options) (v : Value) : Except LoweringError (List Action) :=
  match v.op with
  | .initMem | .arg | .sp | .sb => .ok [.note (.noCode v.op)]
  | .phi => f.lowerPhi v
  | .copy | .movConvert => f.lowerCopy v
  | .loadReg => f.lowerReload opts v
  | .storeReg => f.lowerSpill opts v
  | .mark kind => v.lowerMark kind
  | .generic _ => .error (.unhandledOp v)
  | .alu op => f.lowerAlu op v
  | .aluImm op => f.lowerAluImm op v
  | .const _ => v.lowerConst
  | .movMem => f.lowerAddress opts v
  | .movLoad => f.lowerLoad v
  | .movStore => f.lowerStore v
  | .zeroTest test => f.lowerZeroTest test v
  | .compare _ => .ok [.note (.deferred v.op)]
  | .nilCheck => opts.gap ⟨"LoweredNilCheck", v.text⟩
  | .exitProc => f.lowerExit v

def lowerBranch (f : Func) (b : Block) (next : Option BlockId) :
    Except LoweringError (List Action) := do
  let v ← f.controlValue b
  let cond ← b.condition v
  let (yes, no) ← b.branchTargets
  let rs1 ← f.argRegister v 0
  let rs2 ← f.argRegister v 1
  return branchActions cond rs1 rs2 yes no next

/-- The actions that lower the terminator of a block that `next` follows in the layout. -/
def lowerTerminator (f : Func) (b : Block) (next : Option BlockId) :
    Except LoweringError (List Action) :=
  match b.kind with
  | .plain | .call | .check => b.lowerGoto next
  | .exit => .ok [.emit .undef]
  | .ret => .ok [.emit .ret]
  | .branch => f.lowerBranch b next
  | .generic _ => .error (.unhandledKind b)

end Func

end RiscvLowering
