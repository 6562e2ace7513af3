import Mathlib.Algebra.Ring.Int.Defs
import RiscvLowering.Proofs.Decisions

/-!
# Lowerable — what a value or a terminator needs to be lowered

Whether a value can be lowered is said here by its operation, from the fields of
the value, its arguments and slots and the options, without regard to the order
in which lowering looks at them:

* `Func.Lowerable` — what the operation of a value asks for;
* `Func.TerminatorLowerable` — what the kind of a block asks for.

Main results:

* `exists_lowerValue_iff` — lowering a value succeeds exactly if it is lowerable.
* `exists_lowerTerminator_iff` — lowering a terminator succeeds exactly if it is
  lowerable, whatever block follows.
-/

namespace RiscvLowering

/-! ## Operands -/

/-- Memory accesses have a width for the type. -/
def Ty.IsLoadable (ty : Ty) : Prop :=
  ty.isFloat = false ∧ (ty.size = 1 ∨ ty.size = 2 ∨ ty.size = 4 ∨ ty.size = 8)

/-- The exact sum of two offsets is an offset. -/
def OffsetsFit (a b : Int64) : Prop :=
  -2 ^ 63 ≤ a.toInt + b.toInt ∧ a.toInt + b.toInt < 2 ^ 63

/-- The value has a register. -/
def Value.InRegister (v : Value) : Prop := ∃ r, v.reg = some r

/-- The reference and the constant of the value make up an operand. -/
def Value.IsAddressable (v : Value) : Prop :=
  match v.aux with
  | .none | .global _ | .auto _ => True
  | .arg var => OffsetsFit v.auxInt var.frameOffset
  | .var _ => False

/-- The register that the symbol of a value asks for. -/
def Value.symbolBase (v : Value) : Reg :=
  match v.aux with
  | .global _ => .gp
  | _ => .sp

namespace Func

/-- The argument resolves to the value `a`. -/
def HasArg (f : Func) (v : Value) (index : Nat) (a : Value) : Prop :=
  ∃ id, v.args[index]? = some id ∧ f.value? id = some a

/-- The argument resolves and lies in the register `r`. -/
def HasArgIn (f : Func) (v : Value) (index : Nat) (r : Reg) : Prop :=
  ∃ a, f.HasArg v index a ∧ a.reg = some r

/-- The argument resolves and lies in some register. -/
def ArgInRegister (f : Func) (v : Value) (index : Nat) : Prop := ∃ r, f.HasArgIn v index r

/-- A slot is recorded for the value, at an offset that exists. -/
def HasSlot (f : Func) (v : Value) : Prop :=
  ∃ slot, f.slot? v.id = some slot ∧
    (slot.var.varClass = .param ∨ slot.var.varClass = .paramOut →
      OffsetsFit slot.offset slot.var.frameOffset)

/-! ## Values -/

/-- The value can be lowered: what its operation asks for is there. -/
def Lowerable (f : Func) (options : Options) (v : Value) : Prop :=
  match v.op with
  | .initMem | .arg | .sp | .sb | .compare _ => True
  | .phi => v.ty = .mem ∨ ∀ id ∈ v.args, ∃ a, f.value? id = some a ∧ a.reg = v.reg
  -- a float may be copied where it already is
  | .copy | .movConvert =>
    v.ty = .mem ∨ ∃ rs rd, f.HasArgIn v 0 rs ∧ v.reg = some rd ∧
      (rs = rd ∨ v.ty.isFloat = false)
  | .loadReg =>
    (v.ty = .flags ∧ options.failOnGap = false) ∨
      (v.ty.IsLoadable ∧ (∃ a, f.HasArg v 0 a ∧ f.HasSlot a) ∧ v.InRegister)
  -- the slot is that of the spill; a reload reads that of its argument
  | .storeReg =>
    (v.ty = .flags ∧ options.failOnGap = false) ∨
      (v.ty.IsLoadable ∧ f.ArgInRegister v 0 ∧ f.HasSlot v)
  | .mark _ => ∃ var, v.aux = .var var
  | .generic _ => False
  | .alu _ => f.ArgInRegister v 0 ∧ f.ArgInRegister v 1 ∧ v.InRegister
  | .aluImm _ | .zeroTest _ => f.ArgInRegister v 0 ∧ v.InRegister
  | .const _ => v.InRegister
  | .movMem =>
    v.IsAddressable ∧ (options.checkBaseReg = true → f.HasArgIn v 0 v.symbolBase) ∧
      v.InRegister
  | .movLoad => v.ty.IsLoadable ∧ f.ArgInRegister v 0 ∧ v.IsAddressable ∧ v.InRegister
  | .movStore =>
    (∃ stored, f.HasArg v 1 stored ∧ stored.ty.IsLoadable ∧ stored.InRegister) ∧
      f.ArgInRegister v 0 ∧ v.IsAddressable
  | .nilCheck => options.failOnGap = false
  | .exitProc => f.ArgInRegister v 0

/-- The terminator can be lowered: what the kind of the block asks for is there. -/
def TerminatorLowerable (f : Func) (b : Block) : Prop :=
  match b.kind with
  | .plain | .call | .check => ∃ succ, b.succs = [succ]
  | .exit | .ret => True
  | .branch =>
    (∃ id v cond, b.control = some id ∧ f.value? id = some v ∧ v.block = b.id ∧
      b.values.getLast? = some id ∧ v.op = .compare cond ∧
      f.ArgInRegister v 0 ∧ f.ArgInRegister v 1) ∧
    -- which of them follows decides the code, and never whether there is any
    ∃ yes no, b.succs = [yes, no]
  | .generic _ => False

end Func

/-! ## Operands are given exactly if they are there -/

theorem Ty.isMemory_iff {ty : Ty} : ty.isMemory = true ↔ ty = .mem := by
  cases ty <;> simp [isMemory]

theorem Ty.isFlags_iff {ty : Ty} : ty.isFlags = true ↔ ty = .flags := by
  cases ty <;> simp [isFlags]

/-- A type has a width exactly if it is of 1, 2, 4 or 8 bytes and not a float. -/
theorem Ty.exists_width_iff {ty : Ty} : (∃ w, ty.width = .ok w) ↔ ty.IsLoadable := by
  -- floats are refused by their kind, all else by its size
  have hBytes : (∃ w, Width.ofBytes? ty.size.toNat = some w) ↔
      ty.size = 1 ∨ ty.size = 2 ∨ ty.size = 4 ∨ ty.size = 8 := by
    simp only [Width.ofBytes?_eq_some_iff, ← UInt64.toNat_inj]
    constructor
    · rintro ⟨w, hw⟩
      cases w <;> simp [hw, Width.bytes]
    · rintro (h | h | h | h)
      · exact ⟨.byte, h⟩
      · exact ⟨.half, h⟩
      · exact ⟨.word, h⟩
      · exact ⟨.double, h⟩
  rw [IsLoadable, ← hBytes, width]
  -- a float has no width, whatever its size
  cases ty.isFloat with
  | true => simp
  | false => cases Width.ofBytes? ty.size.toNat <;> simp

/-- Flags have no width, so what has one is no gap. -/
theorem Ty.isFlags_eq_false_of_width {ty : Ty} (h : ∃ w, ty.width = .ok w) :
    ty.isFlags = false := by
  rw [exists_width_iff] at h
  cases ty with
  | flags => simp [IsLoadable, size] at h
  | _ => rfl

/-- Two offsets can be added exactly if their exact sum is an offset. -/
theorem exists_addOffsets_iff {v : Value} {a b : Int64} :
    (∃ c, addOffsets v a b = .ok c) ↔ OffsetsFit a b := by
  rw [addOffsets, OffsetsFit]
  have hMin : Int64.minValue.toInt = -2 ^ 63 := rfl
  have hMax : Int64.maxValue.toInt = 2 ^ 63 - 1 := rfl
  -- the bounds of the sum are those of an offset, as numbers
  rw [hMin, hMax]
  split
  · rename_i h
    simp only [Except.ok.injEq, exists_eq', true_iff]
    omega
  · rename_i h
    simp only [reduceCtorEq, exists_false, false_iff]
    omega

/-- A reference has an address exactly if it is none of a marker, and its offsets can be added. -/
theorem Value.exists_address_iff (v : Value) (base : Reg) :
    (∃ addr, v.address base = .ok addr) ↔ v.IsAddressable := by
  rw [address, IsAddressable]
  -- only the place of an argument is added, so only there can it overflow
  cases v.aux with
  | arg var =>
    simp only [← exists_addOffsets_iff (v := v), bind_eq_ok_iff, pure_eq_ok_iff]
    constructor
    · rintro ⟨addr, c, hc, -⟩
      exact ⟨c, hc⟩
    · rintro ⟨c, hc⟩
      exact ⟨_, c, hc, rfl⟩
  | _ => simp

/-- An address has a base register exactly unless it is one of a marker's variable. -/
theorem Value.baseRegister_eq_ok_iff {v : Value} {base : Reg} :
    v.baseRegister = .ok base ↔ (∀ var, v.aux ≠ .var var) ∧ base = v.symbolBase := by
  rw [baseRegister, symbolBase]
  cases v.aux <;> simp [eq_comm]

theorem Value.IsAddressable.aux_ne {v : Value} (h : v.IsAddressable) (var : FrameVar) :
    v.aux ≠ .var var := by
  intro hAux
  simp [IsAddressable, hAux] at h

namespace Func

variable {f : Func} {options : Options} {v : Value}

theorem arg_eq_ok_iff_hasArg {i : Nat} {a : Value} : f.arg v i = .ok a ↔ f.HasArg v i a :=
  arg_eq_ok_iff

/-- An operand is found in a register exactly if it is in that register. -/
theorem argRegister_eq_ok_iff_hasArgIn {i : Nat} {r : Reg} :
    f.argRegister v i = .ok r ↔ f.HasArgIn v i r := by
  simp only [argRegister_eq_ok_iff, arg_eq_ok_iff_hasArg, HasArgIn]

/-- A slot has an address exactly if there is one, and its offsets can be added where it is one of a
parameter. -/
theorem exists_slotAddress_iff {a : Value} :
    (∃ addr, f.slotAddress a = .ok addr) ↔ f.HasSlot a := by
  rw [slotAddress, HasSlot]
  cases hSlot : f.slot? a.id with
  | none => simp
  | some slot =>
    have hParam : slot.var.varClass.isParam = true ↔
        slot.var.varClass = .param ∨ slot.var.varClass = .paramOut := by
      cases slot.var.varClass <;> simp [VarClass.isParam]
    simp only [Option.some.injEq, exists_eq_left', ← hParam]
    split
    · -- the slot of an argument or of a result is moved by the place of the variable
      rename_i hIs
      simp only [hIs, true_implies, ← exists_addOffsets_iff (v := a), bind_eq_ok_iff,
        pure_eq_ok_iff]
      constructor
      · rintro ⟨addr, c, hc, -⟩
        exact ⟨c, hc⟩
      · rintro ⟨c, hc⟩
        exact ⟨_, c, hc, rfl⟩
    · rename_i hNot
      simp [hNot]

/-- A phi is checked exactly for that its operands are all in its own register. -/
theorem checkPhi_eq_ok_iff :
    f.checkPhi v = .ok () ↔ ∀ id ∈ v.args, ∃ a, f.value? id = some a ∧ a.reg = v.reg := by
  rw [checkPhi]
  -- by the arguments, each of which is looked at by itself
  generalize v.args = ids
  induction ids with
  | nil => simp [pure, Except.pure]
  | cons id ids ih =>
    simp only [List.forM, bind_eq_ok_iff, resolve_eq_ok_iff] at ih ⊢
    rw [List.forall_mem_cons, ← ih]
    constructor
    · rintro ⟨⟨⟩, ⟨a, ha, hSame⟩, hRest⟩
      split at hSame
      · rename_i hReg
        exact ⟨⟨a, ha, hReg⟩, hRest⟩
      · simp [throw, throwThe, MonadExceptOf.throw] at hSame
    · rintro ⟨⟨a, ha, hReg⟩, hRest⟩
      exact ⟨(), ⟨a, ha, by rw [if_pos hReg]; rfl⟩, hRest⟩

/-! ## Values can be lowered exactly if they are lowerable -/

theorem exists_gap_iff {g : Gap} :
    (∃ actions, options.gap g = .ok actions) ↔ options.failOnGap = false := by
  simp only [gap_eq_ok_iff, exists_and_left, exists_eq, and_true]

/-- A phi can be lowered if it is of memory, or if its operands are in its register. -/
theorem exists_lowerPhi_iff :
    (∃ actions, f.lowerPhi v = .ok actions) ↔
      v.ty = .mem ∨ ∀ id ∈ v.args, ∃ a, f.value? id = some a ∧ a.reg = v.reg := by
  simp only [lowerPhi_eq_ok_iff, exists_and_left, exists_eq, and_true, Ty.isMemory_iff,
    checkPhi_eq_ok_iff]

/-- A copy can be lowered if it is of memory, or if both registers are there and it is no float that
would have to move. -/
theorem exists_lowerCopy_iff :
    (∃ actions, f.lowerCopy v = .ok actions) ↔
      v.ty = .mem ∨ ∃ rs rd, f.HasArgIn v 0 rs ∧ v.reg = some rd ∧
        (rs = rd ∨ v.ty.isFloat = false) := by
  simp only [lowerCopy_eq_ok_iff, argRegister_eq_ok_iff_hasArgIn]
  constructor
  · rintro ⟨actions, ⟨hMem, -⟩ | ⟨-, rs, rd, hArg, hReg, hCopy, -⟩⟩
    · exact .inl (Ty.isMemory_iff.mp hMem)
    · exact .inr ⟨rs, rd, hArg, hReg, hCopy⟩
  · intro h
    -- a copy of memory asks for nothing, whatever else is there
    by_cases hMem : v.ty.isMemory = true
    · exact ⟨[], .inl ⟨hMem, rfl⟩⟩
    · obtain hTy | ⟨rs, rd, hArg, hReg, hCopy⟩ := h
      · exact absurd (Ty.isMemory_iff.mpr hTy) hMem
      · exact ⟨_, .inr ⟨by simpa using hMem, rs, rd, hArg, hReg, hCopy, rfl⟩⟩

/-- A reload can be lowered if it is an allowed gap, or if it has a width, a slot to read and a
register. -/
theorem exists_lowerReload_iff :
    (∃ actions, f.lowerReload options v = .ok actions) ↔
      (v.ty = .flags ∧ options.failOnGap = false) ∨
        (v.ty.IsLoadable ∧ (∃ a, f.HasArg v 0 a ∧ f.HasSlot a) ∧ v.InRegister) := by
  simp only [lowerReload_eq_ok_iff, arg_eq_ok_iff_hasArg, ← Ty.exists_width_iff,
    ← exists_slotAddress_iff]
  constructor
  · rintro ⟨actions, ⟨hFlags, hGap⟩ | ⟨-, width, a, addr, rd, hWidth, hArg, hSlot, hReg, -⟩⟩
    · exact .inl ⟨Ty.isFlags_iff.mp hFlags, exists_gap_iff.mp ⟨actions, hGap⟩⟩
    · exact .inr ⟨⟨width, hWidth⟩, ⟨a, hArg, addr, hSlot⟩, rd, hReg⟩
  · rintro (⟨hFlags, hLax⟩ | ⟨hWidth, ⟨a, hArg, addr, hSlot⟩, rd, hReg⟩)
    · obtain ⟨actions, hGap⟩ := exists_gap_iff.mpr hLax
      exact ⟨actions, .inl ⟨Ty.isFlags_iff.mpr hFlags, hGap⟩⟩
    · -- a type that can be loaded is not that of flags
      have hNot := Ty.isFlags_eq_false_of_width hWidth
      obtain ⟨width, hWidth⟩ := hWidth
      exact ⟨_, .inr ⟨hNot, width, a, addr, rd, hWidth, hArg, hSlot, hReg, rfl⟩⟩

/-- A spill can be lowered if it is an allowed gap, or if it has a width, a register to read and a
slot. -/
theorem exists_lowerSpill_iff :
    (∃ actions, f.lowerSpill options v = .ok actions) ↔
      (v.ty = .flags ∧ options.failOnGap = false) ∨
        (v.ty.IsLoadable ∧ f.ArgInRegister v 0 ∧ f.HasSlot v) := by
  simp only [lowerSpill_eq_ok_iff, argRegister_eq_ok_iff_hasArgIn, ← Ty.exists_width_iff,
    ← exists_slotAddress_iff]
  constructor
  · rintro ⟨actions, ⟨hFlags, hGap⟩ | ⟨-, width, rs, addr, hWidth, hArg, hSlot, -⟩⟩
    · exact .inl ⟨Ty.isFlags_iff.mp hFlags, exists_gap_iff.mp ⟨actions, hGap⟩⟩
    · exact .inr ⟨⟨width, hWidth⟩, ⟨rs, hArg⟩, addr, hSlot⟩
  · rintro (⟨hFlags, hLax⟩ | ⟨hWidth, ⟨rs, hArg⟩, addr, hSlot⟩)
    · obtain ⟨actions, hGap⟩ := exists_gap_iff.mpr hLax
      exact ⟨actions, .inl ⟨Ty.isFlags_iff.mpr hFlags, hGap⟩⟩
    · -- again, flags have no width
      have hNot := Ty.isFlags_eq_false_of_width hWidth
      obtain ⟨width, hWidth⟩ := hWidth
      exact ⟨_, .inr ⟨hNot, width, rs, addr, hWidth, hArg, hSlot, rfl⟩⟩

theorem exists_lowerAddress_iff :
    (∃ actions, f.lowerAddress options v = .ok actions) ↔
      v.IsAddressable ∧ (options.checkBaseReg = true → f.HasArgIn v 0 v.symbolBase) ∧
        v.InRegister := by
  simp only [lowerAddress_eq_ok_iff, argRegister_eq_ok_iff_hasArgIn, Value.baseRegister_eq_ok_iff]
  constructor
  · rintro ⟨actions, base, addr, rd, ⟨-, rfl⟩, hBase, hAddr, hReg, -⟩
    exact ⟨(v.exists_address_iff _).mp ⟨addr, hAddr⟩, hBase, rd, hReg⟩
  · -- the base is known, as a symbol with an address is none of a marker
    rintro ⟨hAddr, hBase, rd, hReg⟩
    obtain ⟨addr, hAddress⟩ := (v.exists_address_iff v.symbolBase).mpr hAddr
    exact ⟨_, _, addr, rd, ⟨hAddr.aux_ne, rfl⟩, hBase, hAddress, hReg, rfl⟩

/-- A load can be lowered if its type has a width, its operand a register, its reference an address,
and it a register itself. -/
theorem exists_lowerLoad_iff :
    (∃ actions, f.lowerLoad v = .ok actions) ↔
      v.ty.IsLoadable ∧ f.ArgInRegister v 0 ∧ v.IsAddressable ∧ v.InRegister := by
  simp only [lowerLoad_eq_ok_iff, argRegister_eq_ok_iff_hasArgIn, ← Ty.exists_width_iff]
  constructor
  · rintro ⟨actions, width, base, addr, rd, hWidth, hBase, hAddr, hReg, -⟩
    exact ⟨⟨width, hWidth⟩, ⟨base, hBase⟩, (v.exists_address_iff _).mp ⟨addr, hAddr⟩, rd, hReg⟩
  · -- whether there is an address does not depend on the base
    rintro ⟨⟨width, hWidth⟩, ⟨base, hBase⟩, hAddr, rd, hReg⟩
    obtain ⟨addr, hAddress⟩ := (v.exists_address_iff base).mpr hAddr
    exact ⟨_, width, base, addr, rd, hWidth, hBase, hAddress, hReg, rfl⟩

/-- A store can be lowered if what is stored has a width and a register, the base a register, and
the reference an address. -/
theorem exists_lowerStore_iff :
    (∃ actions, f.lowerStore v = .ok actions) ↔
      (∃ stored, f.HasArg v 1 stored ∧ stored.ty.IsLoadable ∧ stored.InRegister) ∧
        f.ArgInRegister v 0 ∧ v.IsAddressable := by
  simp only [lowerStore_eq_ok_iff, arg_eq_ok_iff_hasArg, argRegister_eq_ok_iff_hasArgIn,
    ← Ty.exists_width_iff]
  constructor
  · rintro ⟨actions, stored, width, base, addr, rs, hArg, hWidth, hBase, hAddr, hReg, -⟩
    exact ⟨⟨stored, hArg, ⟨width, hWidth⟩, rs, hReg⟩, ⟨base, hBase⟩,
      (v.exists_address_iff _).mp ⟨addr, hAddr⟩⟩
  · -- the stored value is one and the same for its width and its register
    rintro ⟨⟨stored, hArg, ⟨width, hWidth⟩, rs, hReg⟩, ⟨base, hBase⟩, hAddr⟩
    obtain ⟨addr, hAddress⟩ := (v.exists_address_iff base).mpr hAddr
    exact ⟨_, stored, width, base, addr, rs, hArg, hWidth, hBase, hAddress, hReg, rfl⟩

/-- **Lowering a value succeeds exactly if the value is lowerable.** -/
theorem exists_lowerValue_iff :
    (∃ actions, f.lowerValue options v = .ok actions) ↔ f.Lowerable options v := by
  -- one case for each operation; those that take no code are always lowerable
  rw [lowerValue, Lowerable]
  cases v.op with
  | initMem | arg | sp | sb | compare cond => simp
  | phi => exact exists_lowerPhi_iff
  | copy | movConvert => exact exists_lowerCopy_iff
  | loadReg => exact exists_lowerReload_iff
  | storeReg => exact exists_lowerSpill_iff
  | mark kind =>
    simp only [lowerMark_eq_ok_iff]
    rw [exists_comm]
    simp only [exists_and_left, exists_eq, and_true]
  | generic op => simp
  | alu op =>
    simp only [lowerAlu_eq_ok_iff, argRegister_eq_ok_iff_hasArgIn]
    constructor
    · rintro ⟨actions, rs1, rs2, rd, h1, h2, hReg, -⟩
      exact ⟨⟨rs1, h1⟩, ⟨rs2, h2⟩, rd, hReg⟩
    · -- x
      rintro ⟨⟨rs1, h1⟩, ⟨rs2, h2⟩, rd, hReg⟩
      exact ⟨_, rs1, rs2, rd, h1, h2, hReg, rfl⟩
  | aluImm op =>
    simp only [lowerAluImm_eq_ok_iff, argRegister_eq_ok_iff_hasArgIn]
    constructor
    · rintro ⟨actions, rs1, rd, h1, hReg, -⟩
      exact ⟨⟨rs1, h1⟩, rd, hReg⟩
    · rintro ⟨⟨rs1, h1⟩, rd, hReg⟩
      exact ⟨_, rs1, rd, h1, hReg, rfl⟩
  | const size =>
    simp only [lowerConst_eq_ok_iff]
    constructor
    · rintro ⟨actions, rd, hReg, -⟩
      exact ⟨rd, hReg⟩
    · rintro ⟨rd, hReg⟩
      exact ⟨_, rd, hReg, rfl⟩
  | movMem => exact exists_lowerAddress_iff
  | movLoad => exact exists_lowerLoad_iff
  | movStore => exact exists_lowerStore_iff
  | zeroTest test =>
    simp only [lowerZeroTest_eq_ok_iff, argRegister_eq_ok_iff_hasArgIn]
    constructor
    · rintro ⟨actions, rs, rd, hArg, hReg, -⟩
      exact ⟨⟨rs, hArg⟩, rd, hReg⟩
    · rintro ⟨⟨rs, hArg⟩, rd, hReg⟩
      exact ⟨_, rs, rd, hArg, hReg, rfl⟩
  | nilCheck => exact exists_gap_iff
  | exitProc =>
    simp only [lowerExit_eq_ok_iff, argRegister_eq_ok_iff_hasArgIn]
    constructor
    · rintro ⟨actions, code, hArg, -⟩
      exact ⟨code, hArg⟩
    · rintro ⟨code, hArg⟩
      exact ⟨_, code, hArg, rfl⟩

/-! ## Terminators can be lowered exactly if they are lowerable -/

/-- **Lowering a terminator succeeds exactly if it is lowerable**, whatever block follows. -/
theorem exists_lowerTerminator_iff {b : Block} {next : Option BlockId} :
    (∃ actions, f.lowerTerminator b next = .ok actions) ↔ f.TerminatorLowerable b := by
  simp only [lowerTerminator_eq_ok_iff]
  rw [TerminatorLowerable]
  constructor
  · -- each way out belongs to the kinds that ask for what it needs
    rintro ⟨actions, h⟩
    cases h with
    | goto hKind hSuccs => rcases hKind with hKind | hKind | hKind <;> exact hKind ▸ ⟨_, hSuccs⟩
    | exit hKind => rw [hKind]; trivial
    | ret hKind => rw [hKind]; trivial
    | branch hKind hControl hOp hSuccs h1 h2 =>
      rw [hKind]
      obtain ⟨id, hId, hValue, hOwner, hLast⟩ := controlValue_eq_ok_iff.mp hControl
      exact ⟨⟨id, _, _, hId, hValue, hOwner, hLast, hOp, ⟨_, argRegister_eq_ok_iff_hasArgIn.mp h1⟩,
        ⟨_, argRegister_eq_ok_iff_hasArgIn.mp h2⟩⟩, _, _, hSuccs⟩
  · cases hKind : b.kind with
    | plain | call | check =>
      rintro ⟨succ, hSuccs⟩
      exact ⟨_, .goto (by simp [hKind]) hSuccs⟩
    | exit => exact fun _ => ⟨_, .exit hKind⟩
    | ret => exact fun _ => ⟨_, .ret hKind⟩
    | branch =>
      rintro ⟨⟨id, v, cond, hId, hValue, hOwner, hLast, hOp, ⟨rs1, h1⟩, rs2, h2⟩, yes, no, hSuccs⟩
      exact ⟨_, .branch hKind (controlValue_eq_ok_iff.mpr ⟨id, hId, hValue, hOwner, hLast⟩) hOp
        hSuccs (argRegister_eq_ok_iff_hasArgIn.mpr h1) (argRegister_eq_ok_iff_hasArgIn.mpr h2)⟩
    | generic kind => exact False.elim

end Func

end RiscvLowering
