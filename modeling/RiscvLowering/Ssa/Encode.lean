import RiscvLowering.Json.Tree
import RiscvLowering.Ssa.Func

/-!
# Functions as documents

The document of a function holds every field of every record, defaults included, in the order of
the records. A choice without data is its name; one with data is an object with its name as the only
key. Slots are in ascending order of value, with the value's number as the key.
-/

namespace RiscvLowering

def Line.toJson (l : Line) : Json := .number l.number.toNat

def Reg.toJson (r : Reg) : Json := .number r.number.val

/-- The document of a 32-bit number. -/
def idToJson (id : UInt32) : Json := .number id.toNat

def idsToJson (ids : List UInt32) : Json := .array (ids.map idToJson)

/-- The document of a choice with data. -/
def taggedJson (name : String) (data : Json) : Json := .object [(name, data)]

def Ty.toJson : Ty → Json
  | int size signed =>
    taggedJson "int" (.object [("size", .number size.toNat), ("signed", .bool signed)])
  | ptr => .string "ptr"
  | bool => .string "bool"
  | float size => taggedJson "float" (.object [("size", .number size.toNat)])
  | mem => .string "mem"
  | flags => .string "flags"
  | aggregate size => taggedJson "aggregate" (.object [("size", .number size.toNat)])
  | void => .string "void"

def FrameVar.toJson (v : FrameVar) : Json :=
  .object [
    ("name", .string v.name),
    ("class", .string v.varClass.name),
    ("frame_offset", .number v.frameOffset.toInt)]

def Aux.toJson : Aux → Json
  | none => .string "none"
  | global name => taggedJson "extern" (.string name)
  | arg v => taggedJson "arg" v.toJson
  | auto v => taggedJson "auto" v.toJson
  | var v => taggedJson "var" v.toJson

def Slot.toJson (s : Slot) : Json :=
  .object [("var", s.var.toJson), ("offset", .number s.offset.toInt)]

def Value.toJson (v : Value) : Json :=
  .object [
    ("id", idToJson v.id),
    ("op", .string v.op.name),
    ("type", v.ty.toJson),
    ("args", idsToJson v.args),
    ("aux_int", .number v.auxInt.toInt),
    ("aux", v.aux.toJson),
    ("reg", v.reg.elim .null Reg.toJson),
    ("block", idToJson v.block),
    ("pos", v.line.toJson)]

def Block.toJson (b : Block) : Json :=
  .object [
    ("id", idToJson b.id),
    ("kind", .string b.kind.name),
    ("values", idsToJson b.values),
    ("control", b.control.elim .null idToJson),
    ("succs", idsToJson b.succs),
    ("pos", b.line.toJson)]

def SlotTable.toJson (t : SlotTable) : Json :=
  .object (t.entries.map fun (id, slot) => (id.toNat.repr, slot.toJson))

def Func.toJson (f : Func) : Json :=
  .object [
    ("name", .string f.name),
    ("values", .array (f.values.map Value.toJson)),
    ("blocks", .array (f.blocks.map Block.toJson)),
    ("slots", f.slots.toJson)]

end RiscvLowering
