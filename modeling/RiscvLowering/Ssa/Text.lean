import RiscvLowering.Ssa.Func

/-!
# The text of a function

One line describes a value or a block; a function is its blocks with the values that they schedule.
-/

namespace RiscvLowering

/-- The description of a value, such as `v2 = MovMem <ptr> v1 [8] {table} : r5`. A constant of 0, an
absent reference and an absent register are left out. -/
def Value.text (v : Value) : String :=
  v.id.name ++ " = " ++ v.op.name ++ " <" ++ v.ty.text ++ ">" ++
    String.join (v.args.map fun id => " " ++ id.name) ++
    (if v.auxInt = 0 then "" else " [" ++ v.auxInt.toInt.repr ++ "]") ++
    (if v.aux = .none then "" else " \x7b" ++ v.aux.text ++ "\x7d") ++
    (v.reg.elim "" fun r => " : " ++ r.allocatorName)

/-- The description of a block, such as `b3 Branch v9 -> b4 b5`. -/
def Block.text (b : Block) : String :=
  b.id.name ++ " " ++ b.kind.name ++
    (b.control.elim "" fun id => " " ++ id.name) ++
    (if b.succs = [] then "" else " ->" ++ String.join (b.succs.map fun id => " " ++ id.name))

namespace Func

/-- The line of a scheduled value. -/
def valueLine (f : Func) (id : ValueId) : String :=
  "    " ++ ((f.value? id).elim (id.name ++ " = <missing>") Value.text) ++ "\n"

/-- The lines of a block and its schedule. -/
def blockLines (f : Func) (b : Block) : String :=
  "  " ++ b.text ++ ":\n" ++ String.join (b.values.map f.valueLine)

/-- The text of a function. -/
def text (f : Func) : String :=
  "func " ++ f.name ++ "\n" ++ String.join (f.blocks.map f.blockLines)

end Func

end RiscvLowering
