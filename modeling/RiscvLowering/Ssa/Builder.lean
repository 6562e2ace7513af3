import RiscvLowering.Ssa.Func

/-!
# Building functions

A function is built by adding blocks and values, which number themselves in the order in which they
are added. A value names its block and is scheduled at the end of it; what is said of a block that
does not exist is dropped.
-/

namespace RiscvLowering

/-- A value to be added: all of it but its number. -/
structure NewValue where
  block : BlockId
  op : Op
  ty : Ty
  args : List ValueId := []
  auxInt : Int64 := 0
  aux : Aux := .none
  reg : Option Reg := none
  line : Line := .unknown

/-- The value with its number. -/
def NewValue.numbered (v : NewValue) (id : ValueId) : Value :=
  { id, op := v.op, ty := v.ty, args := v.args, auxInt := v.auxInt, aux := v.aux, reg := v.reg,
    block := v.block, line := v.line }

/-- A field of a value that may be set once the value is added. -/
inductive Setter where
  | reg (reg : Reg)
  | auxInt (auxInt : Int64)
  | aux (aux : Aux)
  | line (line : Line)

def Setter.apply : Setter → Value → Value
  | .reg r, v => { v with reg := some r }
  | .auxInt n, v => { v with auxInt := n }
  | .aux a, v => { v with aux := a }
  | .line l, v => { v with line := l }

/-- Changes the first block of an id. -/
def modifyBlock (id : BlockId) (change : Block → Block) : List Block → List Block
  | [] => []
  | b :: bs => if b.id = id then change b :: bs else b :: modifyBlock id change bs

abbrev Builder := StateM Func

namespace Builder

/-- Changes the block of an id, if there is one. -/
def onBlock (id : BlockId) (change : Block → Block) : Builder Unit :=
  modify fun f => { f with blocks := modifyBlock id change f.blocks }

/-- Adds an empty block at the end of the layout and gives its id. -/
def block (kind : BlockKind) : Builder BlockId := do
  let f ← get
  let id := UInt32.ofNat f.blocks.length
  set { f with blocks := f.blocks ++ [({ id, kind } : Block)] }
  return id

/-- Adds a value, scheduled at the end of its block, and gives its id. -/
def value (v : NewValue) : Builder ValueId := do
  let id := UInt32.ofNat (← get).values.length
  onBlock v.block fun b => { b with values := b.values ++ [id] }
  modify fun f => { f with values := f.values ++ [v.numbered id] }
  return id

/-- Sets a field of the value that was added last. -/
def setLast (s : Setter) : Builder Unit :=
  modify fun f => { f with values := f.values.modify (f.values.length - 1) s.apply }

def edge (source target : BlockId) : Builder Unit :=
  onBlock source fun b => { b with succs := b.succs ++ [target] }

/-- Sets the value that a block decides by. -/
def control (block : BlockId) (value : ValueId) : Builder Unit :=
  onBlock block fun b => { b with control := some value }

def blockLine (block : BlockId) (line : Line) : Builder Unit :=
  onBlock block fun b => { b with line }

def slot (value : ValueId) (slot : Slot) : Builder Unit :=
  modify fun f => { f with slots := f.slots.insert value slot }

/-- The function that some steps build, from one without blocks and values. -/
def build (name : String) (steps : Builder Unit) : Func :=
  (steps.run { name }).2

end Builder

end RiscvLowering
