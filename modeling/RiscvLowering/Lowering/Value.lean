import RiscvLowering.Lowering.Work

/-!
# Lowering of values

What each operation asks for. Where several things are wrong with a value the error is the one that
its operation meets first.
-/

namespace RiscvLowering

/-- The register that an address is based on: globals have one of their own, all else is in a
frame. -/
def Value.baseRegister (v : Value) : Except LoweringError Reg :=
  match v.aux with
  | .global _ => .ok .gp
  | .arg _ | .auto _ | .none => .ok .sp
  | .var _ => .error (.badAux v)

namespace Func

/-- A join needs no code once all its arguments are in its register. -/
def checkPhi (f : Func) (v : Value) : Except LoweringError Unit :=
  v.args.forM fun id => do
    let a ← f.resolve id
    if a.reg = v.reg then return () else throw (.phiNotLowered v a)

/-- Checks that the argument of an address is in the register that the address is based on. -/
def checkBase (f : Func) (v : Value) (want : Reg) : Except LoweringError Unit := do
  let found ← f.argRegister v 0
  if found = want then return () else throw (.badBaseReg found want v)

/-- The number of the system call that ends the process. -/
def exitCall : Int64 := 94

end Func

namespace Work

/-- A marker speaks of the variable that it refers to. -/
def lowerMark (v : Value) (kind : MarkKind) : Work Unit :=
  match v.aux with
  | .var var => mark kind var
  | _ => throw (.badAux v)

def lowerConst (v : Value) : Work Unit := do
  let rd ← v.register
  emit (.li rd v.auxInt)

def lowerPhi (v : Value) : Work Unit := do
  if v.ty.isMemory then return
  (← func).checkPhi v

/-- A copy is a move, unless both sides are one register. -/
def lowerCopy (v : Value) : Work Unit := do
  if v.ty.isMemory then return
  let rs ← (← func).argRegister v 0
  let rd ← v.register
  if rs = rd then return ← note (.copyElided rs rd)
  -- only a float that has to move is refused
  if v.ty.isFloat then throw (.floatCopy v)
  emit (.mov rd rs)

/-- A reload reads the slot of the argument. -/
def lowerReload (v : Value) : Work Unit := do
  -- flags have no width, so this stands before it
  if v.ty.isFlags then return ← gap ⟨"load flags", v.text⟩
  let width ← v.ty.width
  let spilled ← (← func).arg v 0
  let addr ← (← func).slotAddress spilled
  let rd ← v.register
  emit (.load width rd addr)

/-- A spill writes the slot of the value itself. -/
def lowerSpill (v : Value) : Work Unit := do
  -- as for reloads, flags come before the width
  if v.ty.isFlags then return ← gap ⟨"store flags", v.text⟩
  let width ← v.ty.width
  let rs ← (← func).argRegister v 0
  let addr ← (← func).slotAddress v
  emit (.store width rs addr)

def lowerAlu (op : AluOp) (v : Value) : Work Unit := do
  let rs1 ← (← func).argRegister v 0
  let rs2 ← (← func).argRegister v 1
  let rd ← v.register
  emit (.alu op rd rs1 rs2)

def lowerAluImm (op : AluImmOp) (v : Value) : Work Unit := do
  let rs1 ← (← func).argRegister v 0
  let rd ← v.register
  emit (.aluImm op rd rs1 v.auxInt)

def lowerZeroTest (test : ZeroTest) (v : Value) : Work Unit := do
  let rs ← (← func).argRegister v 0
  let rd ← v.register
  emit (.zeroTest test rd rs)

def lowerAddress (v : Value) : Work Unit := do
  let base ← v.baseRegister
  -- the instruction names the base itself; the argument is looked at here only
  if (← options).checkBaseReg then (← func).checkBase v base
  let addr ← v.address base
  let rd ← v.register
  emit (.la rd addr)

def lowerLoad (v : Value) : Work Unit := do
  let width ← v.ty.width
  let base ← (← func).argRegister v 0
  let addr ← v.address base
  let rd ← v.register
  emit (.load width rd addr)

/-- A store is as wide as the value that it stores. -/
def lowerStore (v : Value) : Work Unit := do
  let stored ← (← func).arg v 1
  let width ← stored.ty.width
  let base ← (← func).argRegister v 0
  let addr ← v.address base
  let rs ← stored.register
  emit (.store width rs addr)

/-- The process ends with the exit code in the argument register. -/
def lowerExit (v : Value) : Work Unit := do
  let code ← (← func).argRegister v 0
  -- the code goes first: it may be in the register that takes the number
  emit (.mov .a0 code)
  emit (.li .a7 Func.exitCall)
  emit .ecall

/-- Lowers a value, which need not be one of the function. -/
def lowerValue (v : Value) : Work Unit := do
  setLine v.line
  say (.loweringValue v)
  match v.op with
  | .initMem | .arg | .sp | .sb => note (.noCode v.op)
  | .phi => lowerPhi v
  | .copy | .movConvert => lowerCopy v
  | .loadReg => lowerReload v
  | .storeReg => lowerSpill v
  | .mark kind => lowerMark v kind
  | .generic _ => throw (.unhandledOp v)
  | .alu op => lowerAlu op v
  | .aluImm op => lowerAluImm op v
  | .const _ => lowerConst v
  | .movMem => lowerAddress v
  | .movLoad => lowerLoad v
  | .movStore => lowerStore v
  | .zeroTest test => lowerZeroTest test v
  -- a comparison is made by the branch that it decides
  | .compare _ => note (.deferred v.op)
  | .nilCheck => gap ⟨"LoweredNilCheck", v.text⟩
  | .exitProc => lowerExit v

end Work

/-- Lowers a value, which need not be one of the function. -/
def Session.lowerValue (s : Session) (v : Value) : Session × Except LoweringError Unit :=
  (Work.lowerValue v).on s

end RiscvLowering
