import RiscvLowering.Lowering.Work

/-!
# Lowering of terminators

How control leaves a block. The block that follows in the layout is reached for nothing; any other
successor needs a jump, and a branch whose first successor follows is inverted.
-/

namespace RiscvLowering

namespace Block

/-- The only successor of a block. -/
def onlySuccessor (b : Block) : Except LoweringError BlockId :=
  match b.succs with
  | [succ] => .ok succ
  | _ => .error (.badSuccessors b 1)

/-- The comparison that the control value of a block makes. -/
def condition (b : Block) (v : Value) : Except LoweringError Cond :=
  match v.op with
  | .compare cond => .ok cond
  | _ => .error (.badControlOp b v)

/-- The successors of a branch: where it goes if its condition holds, and where if not. -/
def branchTargets (b : Block) : Except LoweringError (BlockId × BlockId) :=
  match b.succs with
  | [yes, no] => .ok (yes, no)
  | _ => .error (.badSuccessors b 2)

end Block

/-- The control value of a block: it has to belong to the block and to be its last. -/
def Func.controlValue (f : Func) (b : Block) : Except LoweringError Value := do
  let some id := b.control | throw (.noControl b)
  let v ← f.resolve id
  if v.block ≠ b.id then throw (.misplacedControl b v)
  -- a value after it might change the registers that it compares
  if b.values.getLast? ≠ some id then throw (.badlyScheduledControl b v)
  return v

namespace Work

/-- Goes to the only successor. -/
def lowerGoto (b : Block) (next : Option BlockId) : Work Unit := do
  let succ ← b.onlySuccessor
  if next = some succ then note (.fallsThrough succ) else emitBranch .jump succ

/-- Branches to the successor that does not follow, or to one and jumps to the other. -/
def lowerBranch (b : Block) (next : Option BlockId) : Work Unit := do
  let v ← (← func).controlValue b
  let cond ← b.condition v
  let (yes, no) ← b.branchTargets
  let rs1 ← (← func).argRegister v 0
  let rs2 ← (← func).argRegister v 1
  -- control falls through where the condition holds, so the branch is taken where it does not
  if next = some yes then
    note (.inverting cond yes)
    emitBranch (.branch cond.invert rs1 rs2) no
  -- control falls through where the condition does not hold
  else if next = some no then
    emitBranch (.branch cond rs1 rs2) yes
  else
    -- neither successor follows, so each gets a jump
    emitBranch (.branch cond rs1 rs2) yes
    emitBranch .jump no

/-- Lowers the terminator of a block that `next` follows in the layout. -/
def lowerTerminator (b : Block) (next : Option BlockId) : Work Unit := do
  setLine b.line
  say (.loweringTerminator b next)
  match b.kind with
  | .plain | .call | .check => lowerGoto b next
  | .exit => emit .undef
  | .ret => emit .ret
  | .branch => lowerBranch b next
  | .generic _ => throw (.unhandledKind b)

end Work

/-- Lowers the terminator of a block that `next` follows in the layout. -/
def Session.lowerTerminator (s : Session) (b : Block) (next : Option BlockId) :
    Session × Except LoweringError Unit :=
  (Work.lowerTerminator b next).on s

end RiscvLowering
