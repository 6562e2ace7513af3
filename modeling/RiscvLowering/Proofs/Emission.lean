import RiscvLowering.Proofs.FirstError

/-!
# Emission — the instructions that a value is lowered to

What lowering a value appends to the code of a session depends on the value and
its operands only. `Func.Emits` says it by the operation: one rule for each kind
of operation that takes code, with what the operands of its instructions are,
and one for the values that take none.

Main results:

* `lowerValue_emits` — a decision on a value has the instructions of its rule.
* `Session.emits_of_end` — so has the code that a session appends for it.
* `Session.emitted_of_error` — a value that cannot be lowered appends nothing.
-/

namespace RiscvLowering

/-- The value takes no code: its operation takes none, it is a copy of memory, or
it would spill or reload flags. -/
def Value.IsSilent (v : Value) : Prop :=
  match v.op with
  | .initMem | .arg | .sp | .sb | .phi | .mark _ | .compare _ | .nilCheck => True
  | .copy | .movConvert => v.ty = .mem
  | .loadReg | .storeReg => v.ty = .flags
  | _ => False

namespace Func

/-- The instructions that the operation of a value takes. -/
inductive Emits (f : Func) (v : Value) : List Inst → Prop
  | silent : v.IsSilent → Emits f v []
  | copy {rs rd : Reg} : v.op = .copy ∨ v.op = .movConvert → v.ty ≠ .mem →
      f.HasArgIn v 0 rs → v.reg = some rd → Emits f v (if rs = rd then [] else [.mov rd rs])
  | alu {op : AluOp} {rs1 rs2 rd : Reg} : v.op = .alu op → f.HasArgIn v 0 rs1 →
      f.HasArgIn v 1 rs2 → v.reg = some rd → Emits f v [.alu op rd rs1 rs2]
  | aluImm {op : AluImmOp} {rs rd : Reg} : v.op = .aluImm op → f.HasArgIn v 0 rs →
      v.reg = some rd → Emits f v [.aluImm op rd rs v.auxInt]
  | const {size : ConstSize} {rd : Reg} : v.op = .const size → v.reg = some rd →
      Emits f v [.li rd v.auxInt]
  | zeroTest {test : ZeroTest} {rs rd : Reg} : v.op = .zeroTest test → f.HasArgIn v 0 rs →
      v.reg = some rd → Emits f v [.zeroTest test rd rs]
  | exit {code : Reg} : v.op = .exitProc → f.HasArgIn v 0 code →
      Emits f v [.mov .a0 code, .li .a7 exitCall, .ecall]
  | reload {width : Width} {a : Value} {addr : Address} {rd : Reg} : v.op = .loadReg →
      v.ty.width = .ok width → f.HasArg v 0 a → f.slotAddress a = .ok addr → v.reg = some rd →
      Emits f v [.load width rd addr]
  | spill {width : Width} {rs : Reg} {addr : Address} : v.op = .storeReg →
      v.ty.width = .ok width → f.HasArgIn v 0 rs → f.slotAddress v = .ok addr →
      Emits f v [.store width rs addr]
  | address {base rd : Reg} {addr : Address} : v.op = .movMem → v.baseRegister = .ok base →
      v.address base = .ok addr → v.reg = some rd → Emits f v [.la rd addr]
  | load {width : Width} {base rd : Reg} {addr : Address} : v.op = .movLoad →
      v.ty.width = .ok width → f.HasArgIn v 0 base → v.address base = .ok addr →
      v.reg = some rd → Emits f v [.load width rd addr]
  | store {stored : Value} {width : Width} {base rs : Reg} {addr : Address} : v.op = .movStore →
      f.HasArg v 1 stored → stored.ty.width = .ok width → f.HasArgIn v 0 base →
      v.address base = .ok addr → stored.reg = some rs → Emits f v [.store width rs addr]

variable {f : Func} {options : Options} {v : Value} {actions : List Action}

/-- A copy takes one instruction, unless both registers are the same. -/
theorem insts_copyActions (rs rd : Reg) :
    (copyActions rs rd).filterMap Action.inst? = if rs = rd then [] else [.mov rd rs] := by
  rw [copyActions]
  split <;> rfl

theorem insts_of_gap {g : Gap} (h : options.gap g = .ok actions) :
    actions.filterMap Action.inst? = [] := by
  obtain ⟨-, rfl⟩ := gap_eq_ok_iff.mp h
  rfl

/-- **A decision on a value has the instructions that the operation takes.** -/
theorem lowerValue_emits (h : f.lowerValue options v = .ok actions) :
    f.Emits v (actions.filterMap Action.inst?) := by
  unfold lowerValue at h
  -- one case for each lowering; its instructions are read off its own lemma
  cases hOp : v.op with
  | initMem | arg | sp | sb | compare cond =>
    simp only [hOp, Except.ok.injEq] at h
    subst h
    exact .silent (by simp [Value.IsSilent, hOp])
  | phi =>
    simp only [hOp] at h
    obtain ⟨-, rfl⟩ := lowerPhi_eq_ok_iff.mp h
    exact .silent (by simp [Value.IsSilent, hOp])
  | copy | movConvert =>
    simp only [hOp] at h
    obtain ⟨hMem, rfl⟩ | ⟨hMem, rs, rd, hArg, hReg, -, rfl⟩ := lowerCopy_eq_ok_iff.mp h
    · exact .silent (by simpa [Value.IsSilent, hOp] using Ty.isMemory_iff.mp hMem)
    · rw [insts_copyActions]
      have hTy : v.ty ≠ .mem := fun hTy => by simp [hTy, Ty.isMemory] at hMem
      exact .copy (by simp [hOp]) hTy (argRegister_eq_ok_iff_hasArgIn.mp hArg) hReg
  | loadReg =>
    simp only [hOp] at h
    obtain ⟨hFlags, hGap⟩ | ⟨-, width, a, addr, rd, hWidth, hArg, hSlot, hReg, rfl⟩ :=
      lowerReload_eq_ok_iff.mp h
    · rw [insts_of_gap hGap]
      exact .silent (by simpa [Value.IsSilent, hOp] using Ty.isFlags_iff.mp hFlags)
    · exact .reload hOp hWidth (arg_eq_ok_iff_hasArg.mp hArg) hSlot hReg
  | storeReg =>
    simp only [hOp] at h
    obtain ⟨hFlags, hGap⟩ | ⟨-, width, rs, addr, hWidth, hArg, hSlot, rfl⟩ :=
      lowerSpill_eq_ok_iff.mp h
    · rw [insts_of_gap hGap]
      exact .silent (by simpa [Value.IsSilent, hOp] using Ty.isFlags_iff.mp hFlags)
    · exact .spill hOp hWidth (argRegister_eq_ok_iff_hasArgIn.mp hArg) hSlot
  | mark kind =>
    simp only [hOp] at h
    obtain ⟨var, -, rfl⟩ := lowerMark_eq_ok_iff.mp h
    exact .silent (by simp [Value.IsSilent, hOp])
  | generic op => simp [hOp] at h
  | alu op =>
    simp only [hOp] at h
    obtain ⟨rs1, rs2, rd, h1, h2, hReg, rfl⟩ := lowerAlu_eq_ok_iff.mp h
    exact .alu hOp (argRegister_eq_ok_iff_hasArgIn.mp h1) (argRegister_eq_ok_iff_hasArgIn.mp h2)
      hReg
  | aluImm op =>
    simp only [hOp] at h
    obtain ⟨rs, rd, hArg, hReg, rfl⟩ := lowerAluImm_eq_ok_iff.mp h
    exact .aluImm hOp (argRegister_eq_ok_iff_hasArgIn.mp hArg) hReg
  | const size =>
    simp only [hOp] at h
    obtain ⟨rd, hReg, rfl⟩ := lowerConst_eq_ok_iff.mp h
    exact .const hOp hReg
  | movMem =>
    simp only [hOp] at h
    obtain ⟨base, addr, rd, hBase, -, hAddr, hReg, rfl⟩ := lowerAddress_eq_ok_iff.mp h
    exact .address hOp hBase hAddr hReg
  | movLoad =>
    simp only [hOp] at h
    obtain ⟨width, base, addr, rd, hWidth, hBase, hAddr, hReg, rfl⟩ := lowerLoad_eq_ok_iff.mp h
    exact .load hOp hWidth (argRegister_eq_ok_iff_hasArgIn.mp hBase) hAddr hReg
  | movStore =>
    simp only [hOp] at h
    obtain ⟨stored, width, base, addr, rs, hArg, hWidth, hBase, hAddr, hReg, rfl⟩ :=
      lowerStore_eq_ok_iff.mp h
    exact .store hOp (arg_eq_ok_iff_hasArg.mp hArg) hWidth
      (argRegister_eq_ok_iff_hasArgIn.mp hBase) hAddr hReg
  | zeroTest test =>
    simp only [hOp] at h
    obtain ⟨rs, rd, hArg, hReg, rfl⟩ := lowerZeroTest_eq_ok_iff.mp h
    exact .zeroTest hOp (argRegister_eq_ok_iff_hasArgIn.mp hArg) hReg
  | nilCheck =>
    simp only [hOp] at h
    rw [insts_of_gap h]
    exact .silent (by simp [Value.IsSilent, hOp])
  | exitProc =>
    simp only [hOp] at h
    obtain ⟨code, hArg, rfl⟩ := lowerExit_eq_ok_iff.mp h
    exact .exit hOp (argRegister_eq_ok_iff_hasArgIn.mp hArg)

end Func

/-! ## Sessions -/

namespace Session

/-- The instructions that lowering the value appends to the session. -/
def emitted (s : Session) (v : Value) : List Inst :=
  ((s.lowerValue v).1.code.toList.drop s.code.size).map (·.inst)

variable {s : Session} {v : Value}

/-- What a session appends for a value is the code of the piece of its decision. -/
theorem emitted_eq (s : Session) (v : Value) :
    s.emitted v =
      (Piece.ofDecision v.line (s.func.lowerValue s.options v)).1.code.map (·.inst) := by
  -- what is held afterwards is what was held before, with the piece behind it
  have hCode := congrArg Piece.code (s.lowerValue_adds v).1.piece
  rw [Piece.code_append] at hCode
  change (s.lowerValue v).1.code.toList = s.code.toList ++ _ at hCode
  -- behind the code that was there stands that of the piece
  rw [emitted, hCode, ← Array.length_toList, List.drop_left]

/-- **A value that is lowered appends the instructions that its operation takes.** -/
theorem emits_of_end (h : (s.lowerValue v).2 = .ok ()) : s.func.Emits v (s.emitted v) := by
  rw [(s.lowerValue_adds v).2, end_ofDecision_eq_ok_iff] at h
  obtain ⟨actions, hActions⟩ := h
  rw [emitted_eq, hActions, Piece.ofDecision, Piece.insts_ofActions]
  exact Func.lowerValue_emits hActions

/-- Lowering a value in a session fails as the decision on it does. -/
theorem end_lowerValue_eq_error_iff {e : LoweringError} :
    (s.lowerValue v).2 = .error e ↔ s.func.lowerValue s.options v = .error e := by
  rw [(s.lowerValue_adds v).2, end_ofDecision_eq_error_iff]

/-- A value that cannot be lowered appends nothing. -/
theorem emitted_of_error {e : LoweringError} (h : (s.lowerValue v).2 = .error e) :
    s.emitted v = [] := by
  rw [emitted_eq, end_lowerValue_eq_error_iff.mp h]
  rfl

/-- What is appended for a value is what its operation takes, or nothing. -/
theorem emits_of_mem {inst : Inst} (h : inst ∈ s.emitted v) : s.func.Emits v (s.emitted v) := by
  cases hEnd : (s.lowerValue v).2 with
  | ok _ => exact emits_of_end hEnd
  | error e =>
    rw [emitted_of_error hEnd] at h
    exact absurd h List.not_mem_nil

end Session

end RiscvLowering
