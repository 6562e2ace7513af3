import RiscvLowering.Json.Record
import RiscvLowering.Ssa.Integrity

/-!
# Reading functions

The readers of the records and choices that a function is made of, each with its table of fields or
of variants. `Func.ofText` reads a function as it stands; `Func.load` accepts sound functions only.
-/

namespace RiscvLowering

open Json

/-! ## Types -/

/-- The data of an integer type, field by field. -/
structure IntTypeDraft where
  size : Option UInt64 := none
  signed : Option Bool := none

def intTypeRecord : Record IntTypeDraft Ty where
  fields := [
    .kept "size" (·.size) (fun d x => { d with size := some x }) readUInt64,
    .kept "signed" (·.signed) (fun d x => { d with signed := some x }) readBool]
  blank := {}
  complete d := do
    let size ← required "size" d.size
    let signed ← required "signed" d.signed
    return .int size signed

/-- The data of a type of a size alone. -/
def sizedTypeRecord (make : UInt64 → Ty) : Record (Option UInt64) Ty where
  fields := [.kept "size" id (fun _ x => some x) readUInt64]
  blank := none
  complete d := do
    let size ← required "size" d
    return make size

def Ty.variants : String → Option (Variant Ty)
  | "int" => some (.data intTypeRecord.read)
  | "ptr" => some (.bare .ptr)
  | "bool" => some (.bare .bool)
  | "float" => some (.data (sizedTypeRecord .float).read)
  | "mem" => some (.bare .mem)
  | "flags" => some (.bare .flags)
  | "aggregate" => some (.data (sizedTypeRecord .aggregate).read)
  | "void" => some (.bare .void)
  | _ => none

def Ty.read : Reader Ty := readChoice Ty.variants

/-! ## Frame variables, references and slots -/

structure FrameVarDraft where
  name : Option String := none
  varClass : Option VarClass := none
  frameOffset : Option Int64 := none

def frameVarRecord : Record FrameVarDraft FrameVar where
  fields := [
    .kept "name" (·.name) (fun d x => { d with name := some x }) readString,
    .kept "class" (·.varClass) (fun d x => { d with varClass := some x })
      (readChoice (bareNames VarClass.ofName?)),
    .kept "frame_offset" (·.frameOffset) (fun d x => { d with frameOffset := some x }) readInt64]
  blank := {}
  complete d := do
    let name ← required "name" d.name
    let varClass ← required "class" d.varClass
    return { name, varClass, frameOffset := d.frameOffset.getD 0 }

/-- Reads the data of a reference to a frame variable. -/
def Aux.readVar (make : FrameVar → Aux) : Reader Aux := fun cs => do
  let (v, cs) ← frameVarRecord.read cs
  return (make v, cs)

/-- Reads the data of a reference to a global symbol. -/
def Aux.readGlobal : Reader Aux := fun cs => do
  let (name, cs) ← readString cs
  return (.global name, cs)

def Aux.variants : String → Option (Variant Aux)
  | "none" => some (.bare .none)
  | "extern" => some (.data Aux.readGlobal)
  | "arg" => some (.data (Aux.readVar .arg))
  | "auto" => some (.data (Aux.readVar .auto))
  | "var" => some (.data (Aux.readVar .var))
  | _ => .none

def Aux.read : Reader Aux := readChoice Aux.variants

structure SlotDraft where
  var : Option FrameVar := none
  offset : Option Int64 := none

def slotRecord : Record SlotDraft Slot where
  fields := [
    .kept "var" (·.var) (fun d x => { d with var := some x }) frameVarRecord.read,
    .kept "offset" (·.offset) (fun d x => { d with offset := some x }) readInt64]
  blank := {}
  complete d := do
    let var ← required "var" d.var
    return { var, offset := d.offset.getD 0 }

/-- Reads the number that a key writes, from behind the opening quote up to behind the closing one.
Neither blanks nor escapes may stand in such a key. -/
def readIdKey : Reader ValueId := fun cs =>
  match cs with
  | [] => .error .malformed
  | c :: _ =>
    if c = '-' ∨ c.isDigit then do
      let (id, cs) ← readUInt32 cs
      match cs with
      | '"' :: cs => return (id, cs)
      | _ => throw .malformed
    else .error .malformed

/-- Reads the members of a table of slots, from behind the opening bracket. Of two slots of one
value the later counts. -/
def readSlots : Nat → Bool → SlotTable → Reader SlotTable
  | 0, _, _, _ => .error .malformed
  | fuel + 1, first, t, cs => do
    match ← nextMember .object first cs with
    | .closed cs => return (t, cs)
    | .member cs =>
      let cs ← literal ['"'] cs
      let (id, cs) ← readIdKey cs
      let cs ← punctuation ':' cs
      -- a key may come twice here, as it is no field
      let (slot, cs) ← slotRecord.read cs
      readSlots fuel false (t.insert id slot) cs

def SlotTable.read : Reader SlotTable := fun cs =>
  match skipBlanks cs with
  | '{' :: cs => readSlots (cs.length + 1) true .empty cs
  | cs => .error (unexpected cs)

/-! ## Values, blocks and functions -/

def Line.read : Reader Line := fun cs => do
  let (n, cs) ← readUInt32 cs
  return (⟨n⟩, cs)

structure ValueDraft where
  id : Option ValueId := none
  op : Option Op := none
  ty : Option Ty := none
  args : Option (List ValueId) := none
  auxInt : Option Int64 := none
  aux : Option Aux := none
  reg : Option (Option Reg) := none
  block : Option BlockId := none
  line : Option Line := none

def valueRecord : Record ValueDraft Value where
  fields := [
    .kept "id" (·.id) (fun d x => { d with id := some x }) readUInt32,
    .kept "op" (·.op) (fun d x => { d with op := some x }) (readChoice (bareNames Op.ofName?)),
    .kept "type" (·.ty) (fun d x => { d with ty := some x }) Ty.read,
    .kept "args" (·.args) (fun d x => { d with args := some x }) (readList readUInt32),
    .kept "aux_int" (·.auxInt) (fun d x => { d with auxInt := some x }) readInt64,
    .kept "aux" (·.aux) (fun d x => { d with aux := some x }) Aux.read,
    .kept "reg" (·.reg) (fun d x => { d with reg := some x }) (readNullable readReg),
    .kept "block" (·.block) (fun d x => { d with block := some x }) readUInt32,
    .kept "pos" (·.line) (fun d x => { d with line := some x }) Line.read]
  blank := {}
  complete d := do
    let id ← required "id" d.id
    let op ← required "op" d.op
    let ty ← required "type" d.ty
    let block ← required "block" d.block
    return {
      id, op, ty, block
      args := d.args.getD []
      auxInt := d.auxInt.getD 0
      aux := d.aux.getD .none
      reg := d.reg.getD none
      line := d.line.getD .unknown }

structure BlockDraft where
  id : Option BlockId := none
  kind : Option BlockKind := none
  values : Option (List ValueId) := none
  control : Option (Option ValueId) := none
  succs : Option (List BlockId) := none
  line : Option Line := none

def blockRecord : Record BlockDraft Block where
  fields := [
    .kept "id" (·.id) (fun d x => { d with id := some x }) readUInt32,
    .kept "kind" (·.kind) (fun d x => { d with kind := some x })
      (readChoice (bareNames BlockKind.ofName?)),
    .kept "values" (·.values) (fun d x => { d with values := some x }) (readList readUInt32),
    .kept "control" (·.control) (fun d x => { d with control := some x })
      (readNullable readUInt32),
    .kept "succs" (·.succs) (fun d x => { d with succs := some x }) (readList readUInt32),
    .kept "pos" (·.line) (fun d x => { d with line := some x }) Line.read]
  blank := {}
  complete d := do
    let id ← required "id" d.id
    let kind ← required "kind" d.kind
    return {
      id, kind
      values := d.values.getD []
      control := d.control.getD none
      succs := d.succs.getD []
      line := d.line.getD .unknown }

/-- A function, field by field. -/
structure FuncDraft where
  name : Option String := none
  values : Option (List Value) := none
  blocks : Option (List Block) := none
  slots : Option SlotTable := none

def funcRecord : Record FuncDraft Func where
  fields := [
    .kept "name" (·.name) (fun d x => { d with name := some x }) readString,
    .kept "values" (·.values) (fun d x => { d with values := some x }) (readList valueRecord.read),
    .kept "blocks" (·.blocks) (fun d x => { d with blocks := some x }) (readList blockRecord.read),
    .kept "slots" (·.slots) (fun d x => { d with slots := some x }) SlotTable.read]
  blank := {}
  complete d := do
    let name ← required "name" d.name
    let values ← required "values" d.values
    let blocks ← required "blocks" d.blocks
    return { name, values, blocks, slots := d.slots.getD .empty }

/-! ## Whole texts -/

def Ty.ofText (text : String) : Except Fault Ty := readAll Ty.read text

def Line.ofText (text : String) : Except Fault Line := readAll Line.read text

def Value.ofText (text : String) : Except Fault Value := readAll valueRecord.read text

def Func.ofText (text : String) : Except Fault Func := readAll funcRecord.read text

/-- Why a text is no function that can be lowered. -/
inductive LoadError where
  /-- The text is no document of a function. -/
  | document (fault : Fault)
  /-- The function is not sound. -/
  | integrity (fault : IntegrityFault)
deriving DecidableEq

/-- Reads a function and accepts it if it is sound. -/
def Func.load (text : String) : Except LoadError Func :=
  match Func.ofText text with
  | .error e => .error (.document e)
  | .ok f =>
    match f.check with
    | .error e => .error (.integrity e)
    | .ok () => .ok f

end RiscvLowering
