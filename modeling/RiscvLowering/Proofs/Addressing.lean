import RiscvLowering.Proofs.Emission
import RiscvLowering.Proofs.Errors

/-!
# Addressing — offsets and widths of accesses to memory

An operand of memory comes from one of two places. An address, a load or a store
names a symbol and a constant, and an argument adds its place to the constant. A
spill or a reload goes to the slot of the spilled value, and a slot of an
argument or of a result adds the place of its variable. Either way the offset is
a sum of integers, and it is emitted only if it is an offset.

Main results:

* `Session.offset_exact` — every operand that is emitted has the exact offset.
* `Session.overflow_exact` — an overflow says that the exact offset is none.
* `Session.access_width` — an access is as wide as the type that it accesses.
-/

namespace RiscvLowering

namespace Inst

/-- The operand of memory that an instruction takes. -/
def operand? : Inst → Option Address
  | la _ addr | load _ _ addr | store _ _ addr => some addr
  | _ => none

/-- The width of the access to memory that an instruction makes. -/
def access? : Inst → Option Width
  | load width _ _ | store width _ _ => some width
  | _ => none

end Inst

namespace Func

/-- The operation of the value accesses memory that holds a value of the type. -/
def Accesses (f : Func) (v : Value) (ty : Ty) : Prop :=
  match v.op with
  | .loadReg | .storeReg | .movLoad => ty = v.ty
  | .movStore => ∃ stored, f.HasArg v 1 stored ∧ ty = stored.ty
  | _ => False

end Func

/-- The operand that a value names has the exact offset. -/
theorem Value.offset_address {v : Value} {base : Reg} {addr : Address}
    (h : v.address base = .ok addr) : addr.offset.toInt = v.namedOffset := by
  rw [address] at h
  rw [namedOffset]
  -- only the place of an argument is added to the constant, and that may overflow
  cases hAux : v.aux with
  | none | global name | auto var =>
    simp only [hAux, Except.ok.injEq] at h
    exact h ▸ rfl
  | arg var =>
    simp only [hAux, bind_eq_ok_iff, pure_eq_ok_iff] at h
    obtain ⟨offset, hOffset, rfl⟩ := h
    exact toInt_addOffsets hOffset
  | var var => simp [hAux] at h

namespace Func

variable {f : Func} {a : Value}

/-- The operand of a slot has the exact offset. -/
theorem offset_slotAddress {addr : Address} (h : f.slotAddress a = .ok addr) :
    ∃ slot, f.slot? a.id = some slot ∧ addr.offset.toInt = slot.exactOffset := by
  rw [slotAddress] at h
  cases hSlot : f.slot? a.id with
  | none => simp [hSlot] at h
  | some slot =>
    refine ⟨slot, rfl, ?_⟩
    rw [Slot.exactOffset_eq]
    simp only [hSlot] at h
    -- a parameter has a place of its own, any other variable has none
    split at h
    · rename_i hParam
      simp only [bind_eq_ok_iff, pure_eq_ok_iff] at h
      obtain ⟨offset, hOffset, rfl⟩ := h
      rw [if_pos hParam]
      exact toInt_addOffsets hOffset
    · rename_i hParam
      rw [if_neg hParam, ← Except.ok.inj h]

/-- A slot whose exact offset is none is blamed on the value that has it. -/
theorem slotAddress_eq_overflow {slot : Slot} (hSlot : f.slot? a.id = some slot)
    (hOut : ¬ IsOffset slot.exactOffset) : f.slotAddress a = .error (.offsetOverflow a) := by
  rw [Slot.exactOffset_eq] at hOut
  rw [slotAddress, hSlot]
  -- the place of the variable counts for slots of parameters; a stored offset is one anyway
  split at hOut
  · rename_i hParam
    simp only [if_pos hParam, addOffsets_eq_error hOut]
    rfl
  · exact absurd (isOffset_toInt slot.offset) hOut

/-- A value without a slot has no address. -/
theorem slotAddress_eq_missing (h : f.slot? a.id = none) :
    f.slotAddress a = .error (.missingSlot a) := by
  rw [slotAddress, h]

end Func

/-! ## Operands and widths of what is emitted -/

/-- The width of a type is as many bytes as the type has. -/
theorem Ty.bytes_of_width {ty : Ty} {width : Width} (h : ty.width = .ok width) :
    width.bytes = ty.size.toNat := by
  rw [Ty.width] at h
  -- a float has no width
  split at h
  · simp at h
  · split at h
    · rename_i w hBytes
      obtain rfl := Except.ok.inj h
      exact (Width.ofBytes?_eq_some_iff.mp hBytes).symm
    · simp at h

namespace Session

variable {s t : Session} {v u : Value} {inst : Inst}

/-- **Every operand of memory that is emitted has the exact offset.** -/
theorem offset_exact {addr : Address} (hInst : inst ∈ s.emitted v)
    (hOperand : inst.operand? = some addr) : s.func.HasOffset v addr.offset.toInt := by
  have hEmits := emits_of_mem hInst
  generalize s.emitted v = insts at hInst hEmits
  -- by the rule of the operation: three name their operand, two take a slot, and the
  -- instructions of the others have no operand of memory
  cases hEmits with
  | address hOp _ hAddr _ | load hOp _ _ hAddr _ | store hOp _ _ _ hAddr _ =>
    obtain rfl := List.mem_singleton.mp hInst
    obtain rfl := Option.some.inj hOperand
    simp only [Func.HasOffset, hOp]
    exact Value.offset_address hAddr
  | reload hOp _ hArg hAddr _ =>
    obtain rfl := List.mem_singleton.mp hInst
    obtain rfl := Option.some.inj hOperand
    obtain ⟨slot, hSlot, hOffset⟩ := Func.offset_slotAddress hAddr
    simp only [Func.HasOffset, Func.UsesSlot, hOp]
    exact ⟨slot, ⟨_, hArg, hSlot⟩, hOffset⟩
  | spill hOp _ _ hAddr =>
    obtain rfl := List.mem_singleton.mp hInst
    obtain rfl := Option.some.inj hOperand
    obtain ⟨slot, hSlot, hOffset⟩ := Func.offset_slotAddress hAddr
    simp only [Func.HasOffset, Func.UsesSlot, hOp]
    exact ⟨slot, hSlot, hOffset⟩
  | silent => simp at hInst
  | copy =>
    split at hInst
    · simp at hInst
    · obtain rfl := List.mem_singleton.mp hInst
      simp [Inst.operand?] at hOperand
  | alu | aluImm | const | zeroTest =>
    obtain rfl := List.mem_singleton.mp hInst
    simp [Inst.operand?] at hOperand
  | exit =>
    simp only [List.mem_cons, List.not_mem_nil, or_false] at hInst
    rcases hInst with rfl | rfl | rfl <;> simp [Inst.operand?] at hOperand

/-- **An overflow says that the exact offset is none.** -/
theorem overflow_exact {w : Value} (h : (s.lowerValue v).2 = .error (.offsetOverflow w)) :
    ∃ n, s.func.HasOffset v n ∧ ¬ IsOffset n :=
  Func.not_isOffset_of_overflow (end_lowerValue_eq_error_iff.mp h)

/-- **An access that is emitted is as wide as the type that it accesses.** -/
theorem access_width {width : Width} (hInst : inst ∈ s.emitted v)
    (hAccess : inst.access? = some width) :
    ∃ ty, s.func.Accesses v ty ∧ width.bytes = ty.size.toNat := by
  have hEmits := emits_of_mem hInst
  generalize s.emitted v = insts at hInst hEmits
  -- a store is as wide as the value that it stores, all others as their own
  cases hEmits with
  | reload hOp hWidth _ _ _ | spill hOp hWidth _ _ | load hOp hWidth _ _ _ =>
    obtain rfl := List.mem_singleton.mp hInst
    obtain rfl := Option.some.inj hAccess
    exact ⟨v.ty, by simp [Func.Accesses, hOp], Ty.bytes_of_width hWidth⟩
  | store hOp hStored hWidth _ _ _ =>
    obtain rfl := List.mem_singleton.mp hInst
    obtain rfl := Option.some.inj hAccess
    refine ⟨_, ?_, Ty.bytes_of_width hWidth⟩
    simp only [Func.Accesses, hOp]
    exact ⟨_, hStored, rfl⟩
  | silent => simp at hInst
  | copy =>
    split at hInst
    · simp at hInst
    · obtain rfl := List.mem_singleton.mp hInst
      simp [Inst.access?] at hAccess
  | alu | aluImm | const | zeroTest | address =>
    obtain rfl := List.mem_singleton.mp hInst
    simp [Inst.access?] at hAccess
  | exit =>
    simp only [List.mem_cons, List.not_mem_nil, or_false] at hInst
    rcases hInst with rfl | rfl | rfl <;> simp [Inst.access?] at hAccess

end Session

end RiscvLowering
