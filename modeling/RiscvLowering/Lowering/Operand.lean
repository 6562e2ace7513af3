import RiscvLowering.Lowering.Error
import RiscvLowering.Machine.Inst

/-!
# Operands

The operands that lowering needs: registers of values and of their arguments, widths of memory
accesses, and addresses of symbols and of slots. Offsets are added exactly; a sum outside 64 bits is
an error.
-/

namespace RiscvLowering

/-- The register of a value. -/
def Value.register (v : Value) : Except LoweringError Reg :=
  match v.reg with
  | some r => .ok r
  | none => .error (.noRegister v)

namespace Func

/-- The value of an id. -/
def resolve (f : Func) (id : ValueId) : Except LoweringError Value :=
  match f.value? id with
  | some v => .ok v
  | none => .error (.missingValue id)

/-- An argument of a value. -/
def arg (f : Func) (v : Value) (index : Nat) : Except LoweringError Value :=
  match v.args[index]? with
  | some id => f.resolve id
  | none => .error (.missingArg index v)

/-- The register of an argument of a value. -/
def argRegister (f : Func) (v : Value) (index : Nat) : Except LoweringError Reg := do
  (← f.arg v index).register

end Func

/-- The width of an access to memory that holds a value of a type. -/
def Ty.width (ty : Ty) : Except LoweringError Width :=
  if ty.isFloat then .error (.floatAccess ty)
  else
    match Width.ofBytes? ty.size.toNat with
    | some w => .ok w
    | none => .error (.badStoreType ty)

/-- The sum of two offsets of an operand of `v`. -/
def addOffsets (v : Value) (a b : Int64) : Except LoweringError Int64 :=
  if Int64.minValue.toInt ≤ a.toInt + b.toInt ∧ a.toInt + b.toInt ≤ Int64.maxValue.toInt then
    .ok (Int64.ofInt (a.toInt + b.toInt))
  else .error (.offsetOverflow v)

/-- Offsets are added as integers: a sum that is given is exact. -/
theorem toInt_addOffsets {v : Value} {a b c : Int64} (h : addOffsets v a b = .ok c) :
    c.toInt = a.toInt + b.toInt := by
  unfold addOffsets at h
  split at h
  · rename_i hr
    rw [← Except.ok.inj h, Int64.toInt_ofInt_of_le hr.1 (Int.lt_of_le_of_lt hr.2 (by decide))]
  · simp at h

/-- The operand that a value names by its reference and its constant, off a base register. An
argument adds its place in the area of arguments; a local is placed when the frame is laid out. -/
def Value.address (v : Value) (base : Reg) : Except LoweringError Address :=
  match v.aux with
  | .none => .ok ⟨base, .none, v.auxInt⟩
  | .global name => .ok ⟨base, .global name, v.auxInt⟩
  | .arg var => do return ⟨base, .param var.name, ← addOffsets v v.auxInt var.frameOffset⟩
  | .auto var => .ok ⟨base, .auto var.name, v.auxInt⟩
  | .var _ => .error (.badAux v)

/-- The operand of the slot that holds a spilled value. -/
def Func.slotAddress (f : Func) (spilled : Value) : Except LoweringError Address :=
  match f.slot? spilled.id with
  | none => .error (.missingSlot spilled)
  | some slot =>
    if slot.var.varClass.isParam then do
      return ⟨none, .param slot.var.name, ← addOffsets spilled slot.offset slot.var.frameOffset⟩
    else .ok ⟨none, .auto slot.var.name, slot.offset⟩

end RiscvLowering
