import RiscvLowering.Machine.Register
import RiscvLowering.Machine.Operation

/-!
# Instructions

The RV64 instructions that lowering emits, their memory operands, and the text of both. The target
of a branch is no part of the instruction: it is recorded beside the code until the layout of the
whole function is final.
-/

namespace RiscvLowering

/-- The symbol of a memory operand, if it has one, with the area that the symbol lies in. -/
inductive Symbol where
  /-- No symbol: a register and an offset. -/
  | none
  /-- A global symbol. -/
  | global (name : String)
  /-- An argument in the caller's frame. -/
  | param (name : String)
  /-- A local in this function's frame. -/
  | auto (name : String)
deriving DecidableEq

namespace Symbol

def name? : Symbol → Option String
  | none => .none
  | global s | param s | auto s => some s

/-- The area that stands for the base register while the frame is not laid out. -/
def area? : Symbol → Option String
  | none => .none
  | global _ => some "SB"
  | param _ => some "FP"
  | auto _ => some "SP"

end Symbol

/-- A memory operand. Without a base register its symbol's area selects the frame, and the final
frame layout puts the register in. -/
structure Address where
  base : Option Reg
  symbol : Symbol
  offset : Int64
deriving DecidableEq

namespace Address

/-- A number with its sign, also where it is not negative. -/
def signed (n : Int) : String := (if 0 ≤ n then "+" else "") ++ n.repr

/-- The part before the brackets: `x`, `x+8`, or the bare offset where there is no symbol. -/
def stem (a : Address) : String :=
  match a.symbol.name? with
  | none => a.offset.toInt.repr
  | some s => if a.offset = 0 then s else s ++ signed a.offset.toInt

/-- What stands in the brackets: the base register, else the symbol's area. -/
def base? (a : Address) : Option String := a.base.map Reg.abiName <|> a.symbol.area?

/-- The text of an operand, such as `counter+8(gp)`, `tmp-16(SP)` or `0(a0)`. -/
def text (a : Address) : String :=
  match a.base? with
  | none => a.stem
  | some b => a.stem ++ "(" ++ b ++ ")"

end Address

/-- An instruction. -/
inductive Inst where
  /-- `rd` becomes `rs1 op rs2`. -/
  | alu (op : AluOp) (rd rs1 rs2 : Reg)
  /-- `rd` becomes `rs1 op imm`. -/
  | aluImm (op : AluImmOp) (rd rs1 : Reg) (imm : Int64)
  /-- `rd` becomes a constant. -/
  | li (rd : Reg) (imm : Int64)
  /-- `rd` becomes `rs`. -/
  | mov (rd rs : Reg)
  /-- `rd` becomes the address of an operand. -/
  | la (rd : Reg) (addr : Address)
  /-- `rd` becomes what memory holds at an operand. -/
  | load (width : Width) (rd : Reg) (addr : Address)
  /-- Memory at an operand becomes `rs`. -/
  | store (width : Width) (rs : Reg) (addr : Address)
  /-- `rd` becomes 1 or 0 by whether `rs` is zero. -/
  | zeroTest (test : ZeroTest) (rd rs : Reg)
  /-- Goes to the recorded target if the comparison holds. -/
  | branch (cond : Cond) (rs1 rs2 : Reg)
  /-- Goes to the recorded target. -/
  | jump
  /-- Calls the system. -/
  | ecall
  /-- Traps: control never gets past it. -/
  | undef
  /-- Returns to the caller. -/
  | ret
deriving DecidableEq

namespace Inst

def isJump : Inst → Bool
  | jump => true
  | _ => false

/-- A mnemonic with its operands. -/
def operands (mnemonic : String) (args : List String) : String :=
  mnemonic ++ " " ++ ", ".intercalate args

/-- The text of an instruction, such as `ADDI t0, t0, -8`. -/
def text : Inst → String
  | alu op rd rs1 rs2 => operands op.mnemonic [rd.abiName, rs1.abiName, rs2.abiName]
  | aluImm op rd rs1 imm => operands op.mnemonic [rd.abiName, rs1.abiName, imm.toInt.repr]
  | li rd imm => operands "LI" [rd.abiName, imm.toInt.repr]
  | mov rd rs => operands "MOV" [rd.abiName, rs.abiName]
  | la rd addr => operands "LA" [rd.abiName, addr.text]
  | load width rd addr => operands width.loadMnemonic [rd.abiName, addr.text]
  | store width rs addr => operands width.storeMnemonic [rs.abiName, addr.text]
  | zeroTest test rd rs => operands test.mnemonic [rd.abiName, rs.abiName]
  | branch cond rs1 rs2 => operands cond.mnemonic [rs1.abiName, rs2.abiName]
  | jump => "JMP"
  | ecall => "ECALL"
  | undef => "UNIMP"
  | ret => "RET"

end Inst

end RiscvLowering
