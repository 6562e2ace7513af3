import RiscvLowering.Json.Tree
import RiscvLowering.Ssa.Text

/-!
# Errors and gaps

Lowering fails for two reasons. An error says that the function breaks a rule that earlier stages
keep, and ends the lowering of the function. A gap says that the lowering of a value is not
implemented; it is recorded, and lowering goes on without code for the value.
-/

namespace RiscvLowering

/-- A lowering that is not implemented. -/
structure Gap where
  /-- What is not implemented. -/
  what : String
  /-- The value that it was needed for, described. -/
  value : String
deriving DecidableEq

namespace Gap

def text (g : Gap) : String := "unimplemented: " ++ g.what ++ ": " ++ g.value

def toJson (g : Gap) : Json :=
  .object [("Unimplemented", .object [("what", .string g.what), ("value", .string g.value)])]

end Gap

/-- Why a value or a block cannot be lowered. -/
inductive LoweringError where
  /-- An operation that must be gone before lowering. -/
  | unhandledOp (v : Value)
  /-- A kind of block that must be gone before lowering. -/
  | unhandledKind (b : Block)
  /-- A float that would have to pass through memory. -/
  | floatAccess (ty : Ty)
  /-- A float that would have to move between registers. -/
  | floatCopy (v : Value)
  /-- A type of a size that no memory access has. -/
  | badStoreType (ty : Ty)
  /-- A reference of a kind that the operation does not take. -/
  | badAux (v : Value)
  /-- A memory offset outside 64 bits. -/
  | offsetOverflow (v : Value)
  /-- An address that is based on another register than its symbol asks for. -/
  | badBaseReg (found want : Reg) (v : Value)
  /-- A control value of another block. -/
  | misplacedControl (b : Block) (v : Value)
  /-- A control value that is not the last of its block. -/
  | badlyScheduledControl (b : Block) (v : Value)
  /-- A control value that compares nothing. -/
  | badControlOp (b : Block) (v : Value)
  /-- A branch block without control value. -/
  | noControl (b : Block)
  /-- A block with the wrong number of successors. -/
  | badSuccessors (b : Block) (want : Nat)
  | noRegister (v : Value)
  | missingSlot (v : Value)
  | missingValue (id : ValueId)
  | missingArg (index : Nat) (v : Value)
  /-- A gap, where gaps are errors. -/
  | unimplemented (gap : Gap)
  /-- A join whose argument is in another register. -/
  | phiNotLowered (phi arg : Value)
deriving DecidableEq

namespace LoweringError

/-- The short name of the reason. -/
def className : LoweringError → String
  | unhandledOp _ => "unhandled-op"
  | unhandledKind _ => "unhandled-kind"
  | floatAccess _ | floatCopy _ => "float-unsupported"
  | badStoreType _ => "bad-store-type"
  | badAux _ => "bad-aux"
  | offsetOverflow _ => "offset-overflow"
  | badBaseReg _ _ _ => "bad-base-reg"
  | misplacedControl _ _ => "misplaced-control"
  | badlyScheduledControl _ _ => "badly-scheduled-control"
  | badControlOp _ _ => "bad-control-op"
  | noControl _ => "no-control"
  | badSuccessors _ _ => "bad-successors"
  | noRegister _ => "no-register"
  | missingSlot _ => "missing-slot"
  | missingValue _ => "missing-value"
  | missingArg _ _ => "missing-arg"
  | unimplemented _ => "unimplemented"
  | phiNotLowered _ _ => "phi-not-lowered"

/-- The register of a value by its name in assembly. -/
def regText (v : Value) : String := v.reg.elim "none" Reg.abiName

/-- What is said of the reason. -/
def message : LoweringError → String
  | unhandledOp v => "Unhandled op " ++ v.op.name ++ ": " ++ v.text
  | unhandledKind b => "Unhandled kind " ++ b.kind.name ++ ": " ++ b.text
  | floatAccess ty => "float unsupported: load/store of " ++ ty.text
  | floatCopy v => "float unsupported: float copy: " ++ v.text
  | badStoreType ty => "bad store type " ++ ty.text ++ " (size " ++ ty.size.toNat.repr ++ ")"
  | badAux v => "aux is of unexpected kind " ++ v.aux.kindName ++ ": " ++ v.text
  | offsetOverflow v => "memory offset overflows: " ++ v.text
  | badBaseReg found want v =>
    "bad reg " ++ found.abiName ++ " for symbol type " ++ v.aux.kindName ++ ", want " ++
      want.abiName ++ ": " ++ v.text
  | misplacedControl b v =>
    "control value in the wrong block " ++ v.block.name ++ ", want " ++ b.id.name ++ ": " ++ v.text
  | badlyScheduledControl b v =>
    "badly scheduled control value for block " ++ b.id.name ++ ": " ++ v.text
  | badControlOp b v =>
    "control value for block " ++ b.id.name ++ " is not a branch condition: " ++ v.text
  | noControl b => "block " ++ b.text ++ " has no control value"
  | badSuccessors b want =>
    "block " ++ b.id.name ++ " of kind " ++ b.kind.name ++ " has " ++ b.succs.length.repr ++
      " successors, want " ++ want.repr
  | noRegister v => "no register assigned: " ++ v.text
  | missingSlot v => "no stack slot recorded for " ++ v.text
  | missingValue id => "reference to unknown value " ++ id.name
  | missingArg index v => "missing argument " ++ index.repr ++ ": " ++ v.text
  | unimplemented gap => gap.text
  | phiNotLowered phi arg =>
    "phi not lowered, argument in " ++ regText arg ++ " but phi in " ++ regText phi ++ ": " ++
      phi.text

end LoweringError

end RiscvLowering
