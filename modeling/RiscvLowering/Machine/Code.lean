import RiscvLowering.Line
import RiscvLowering.Machine.Inst
import RiscvLowering.Ssa.Id

/-!
# Emitted code

Code is a sequence of instructions that only grows, so the index of an instruction names it for
good. A branch is pending until the layout is final: it is known by the index of its instruction
and the block that it goes to.
-/

namespace RiscvLowering

/-- An instruction with the line that it was emitted for. -/
structure Placed where
  inst : Inst
  line : Line
deriving DecidableEq

/-- The code of a function, in order. -/
abbrev Code := Array Placed

namespace Code

/-- Appends an instruction and gives its index. -/
def emit (code : Code) (inst : Inst) (line : Line) : Nat × Code :=
  (code.size, code.push ⟨inst, line⟩)

/-- One instruction to a line, without labels and targets. -/
def plain (code : List Placed) : String :=
  String.join (code.map fun p => p.inst.text ++ "\n")

end Code

/-- A branch whose distance is not known yet. -/
structure PendingBranch where
  /-- The index of the branch in the code. -/
  index : Nat
  /-- The block that it goes to. -/
  target : BlockId
deriving DecidableEq

/-- Where a block begins: the index of the first instruction emitted from its start on. -/
structure BlockStart where
  block : BlockId
  index : Nat
deriving DecidableEq

end RiscvLowering
