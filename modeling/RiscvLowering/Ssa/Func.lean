import RiscvLowering.Line
import RiscvLowering.Machine.Register
import RiscvLowering.Ssa.Op
import RiscvLowering.Ssa.Slot
import RiscvLowering.Ssa.Ty

/-!
# Functions

A function is an arena of values, its blocks in layout order, and the slots of its spilled values.
Each block schedules some values of the arena; each value that lives in a register names it.
-/

namespace RiscvLowering

/-- The symbol or variable that a value refers to. -/
inductive Aux where
  | none
  | global (name : String)
  /-- An argument, as a symbol of an address. -/
  | arg (var : FrameVar)
  /-- A local, as a symbol of an address. -/
  | auto (var : FrameVar)
  /-- A variable that a marker speaks of. -/
  | var (var : FrameVar)
deriving DecidableEq

namespace Aux

/-- The name of the kind of reference, in documents and in errors. -/
def kindName : Aux → String
  | none => "none"
  | global _ => "extern"
  | arg _ => "arg"
  | auto _ => "auto"
  | var _ => "var"

/-- The name of what is referred to. -/
def text : Aux → String
  | none => "none"
  | global name => name
  | arg v | auto v | var v => v.name

end Aux

structure Value where
  id : ValueId
  op : Op
  ty : Ty
  args : List ValueId := []
  /-- The constant of the operation; 0 where it has none. -/
  auxInt : Int64 := 0
  aux : Aux := .none
  reg : Option Reg := none
  /-- The block that the value belongs to. -/
  block : BlockId
  line : Line := .unknown
deriving DecidableEq

structure Block where
  id : BlockId
  kind : BlockKind
  values : List ValueId := []
  /-- The value that a branch block decides by. -/
  control : Option ValueId := none
  /-- The successors; a branch block goes to the first if its condition holds. -/
  succs : List BlockId := []
  line : Line := .unknown
deriving DecidableEq

structure Func where
  name : String
  values : List Value := []
  blocks : List Block := []
  slots : SlotTable := .empty
deriving DecidableEq

namespace Func

/-- The value at an arena index. -/
def value? (f : Func) (id : ValueId) : Option Value := f.values[id.toNat]?

/-- The first block of an id. -/
def block? (f : Func) (id : BlockId) : Option Block := f.blocks.find? (·.id = id)

/-- The slot recorded for a value. -/
def slot? (f : Func) (id : ValueId) : Option Slot := f.slots.get? id

end Func

end RiscvLowering
