import RiscvLowering.Proofs.Actions
import RiscvLowering.Proofs.Basic

/-!
# Decisions — what the lowering of a value or a terminator asks for

Each lowering decides on a list of actions or fails. This module says for each
when it succeeds and on what actions it then decides, so that nothing later has
to open a lowering again.

Main results:

* `lowerValue_valueActions` — the few things that lowering a value decides on;
  so it never moves control (`lowerValue_straight`).
* `lowerTerminator_eq_ok_iff` — a terminator succeeds exactly where control
  `Leaves` the block in one of the ways of its kind, by the actions of that way.
-/

namespace RiscvLowering

/-! ## Operands -/

/-- A register is found exactly if one is assigned. -/
theorem Value.register_eq_ok_iff {v : Value} {r : Reg} : v.register = .ok r ↔ v.reg = some r := by
  rw [register]
  split <;> rename_i h <;> simp [h]

namespace Func

variable {f : Func} {options : Options} {v : Value} {actions : List Action}

theorem resolve_eq_ok_iff {id : ValueId} : f.resolve id = .ok v ↔ f.value? id = some v := by
  rw [resolve]
  split <;> rename_i h <;> simp [h]

/-- An operand is found exactly if there is one at that place and it resolves. -/
theorem arg_eq_ok_iff {a : Value} {i : Nat} :
    f.arg v i = .ok a ↔ ∃ id, v.args[i]? = some id ∧ f.value? id = some a := by
  rw [arg]
  split <;> rename_i h <;> simp [h, resolve_eq_ok_iff]

theorem argRegister_eq_ok_iff {i : Nat} {r : Reg} :
    f.argRegister v i = .ok r ↔ ∃ a, f.arg v i = .ok a ∧ a.reg = some r := by
  rw [argRegister, bind_eq_ok_iff]
  simp only [Value.register_eq_ok_iff]

/-! ## Values -/

/-- A gap is passed over exactly if gaps are allowed, and then it is on record. -/
theorem gap_eq_ok_iff {g : Gap} :
    options.gap g = .ok actions ↔ options.failOnGap = false ∧ actions = [.gap g] := by
  rw [Options.gap]
  split <;> rename_i h <;> simp [h, eq_comm]

/-- A marker wants a variable to mark, and nothing else. -/
theorem lowerMark_eq_ok_iff {kind : MarkKind} :
    v.lowerMark kind = .ok actions ↔ ∃ var, v.aux = .var var ∧ actions = [.mark kind var] := by
  rw [Value.lowerMark]
  split
  · rename_i h
    simp [h, eq_comm]
  · rename_i h
    -- only a variable can be marked
    simpa using fun var hAux _ => h var hAux

theorem lowerConst_eq_ok_iff :
    v.lowerConst = .ok actions ↔ ∃ rd, v.reg = some rd ∧ actions = [.emit (.li rd v.auxInt)] := by
  simp only [Value.lowerConst, bind_eq_ok_iff, pure_eq_ok_iff, Value.register_eq_ok_iff,
    eq_comm (a := actions)]

/-- A phi emits nothing; unless it is of memory, it wants all its operands in its register. -/
theorem lowerPhi_eq_ok_iff :
    f.lowerPhi v = .ok actions ↔
      (v.ty.isMemory = true ∨ f.checkPhi v = .ok ()) ∧ actions = [] := by
  rw [lowerPhi]
  -- a phi of memory is not checked
  by_cases hMem : v.ty.isMemory = true
  · simp only [hMem, if_true, pure_eq_ok_iff, true_or, true_and, eq_comm (a := actions)]
  · simp only [hMem, if_false, bind_eq_ok_iff, pure_eq_ok_iff, false_or, Bool.false_eq_true,
      eq_comm (a := actions), exists_and_right]
    constructor
    · rintro ⟨⟨⟨⟩, hCheck⟩, hActions⟩
      exact ⟨hCheck, hActions⟩
    · rintro ⟨hCheck, hActions⟩
      exact ⟨⟨(), hCheck⟩, hActions⟩

/-- What a copy decides on when it is none of memory. -/
def copyActions (rs rd : Reg) : List Action :=
  if rs = rd then [.note (.copyElided rs rd)] else [.emit (.mov rd rs)]

/-- A copy of memory is free; of registers it wants two, and between two that differ it cannot be of
a float. -/
theorem lowerCopy_eq_ok_iff :
    f.lowerCopy v = .ok actions ↔
      (v.ty.isMemory = true ∧ actions = []) ∨
      (v.ty.isMemory = false ∧ ∃ rs rd, f.argRegister v 0 = .ok rs ∧ v.reg = some rd ∧
        (rs = rd ∨ v.ty.isFloat = false) ∧ actions = copyActions rs rd) := by
  rw [lowerCopy]
  by_cases hMem : v.ty.isMemory = true
  · simp only [hMem, if_true, pure_eq_ok_iff, true_and, Bool.true_eq_false, false_and, or_false,
      eq_comm (a := actions)]
  · rw [Bool.not_eq_true] at hMem
    simp only [hMem, Bool.false_eq_true, if_false, false_and, false_or, true_and, bind_eq_ok_iff,
      Value.register_eq_ok_iff]
    refine exists_congr fun rs => ?_
    rw [← exists_and_left]
    refine exists_congr fun rd => and_congr_right fun _ => and_congr_right fun _ => ?_
    rw [copyActions]
    by_cases hSame : rs = rd
    · simp only [hSame, if_true, pure_eq_ok_iff, true_or, true_and, eq_comm (a := actions)]
    · -- a copy between two registers is refused for a float only
      by_cases hFloat : v.ty.isFloat = true
      · simp only [hSame, hFloat, if_true, if_false, throw_bind_ne_ok, false_or,
          Bool.true_eq_false, false_and]
      · rw [Bool.not_eq_true] at hFloat
        simp only [hSame, hFloat, if_false, Bool.false_eq_true, pure_eq_ok_iff, false_or,
          true_and, eq_comm (a := actions)]

/-- A reload of flags is a gap; any other wants a width, the slot of what was spilled and a
register. -/
theorem lowerReload_eq_ok_iff :
    f.lowerReload options v = .ok actions ↔
      (v.ty.isFlags = true ∧ options.gap ⟨"load flags", v.text⟩ = .ok actions) ∨
      (v.ty.isFlags = false ∧ ∃ width a addr rd, v.ty.width = .ok width ∧ f.arg v 0 = .ok a ∧
        f.slotAddress a = .ok addr ∧ v.reg = some rd ∧
        actions = [.emit (.load width rd addr)]) := by
  rw [lowerReload]
  -- flags are not reloaded, and all else is looked up in turn
  by_cases hFlags : v.ty.isFlags = true
  · simp only [hFlags, if_true, true_and, Bool.true_eq_false, false_and, or_false]
  · rw [Bool.not_eq_true] at hFlags
    simp only [hFlags, Bool.false_eq_true, if_false, false_and, false_or, true_and,
      bind_eq_ok_iff, pure_eq_ok_iff, Value.register_eq_ok_iff, eq_comm (a := actions),
      exists_and_left]

/-- A spill of flags is a gap; any other wants a width, the register of what is spilled and a slot.
-/
theorem lowerSpill_eq_ok_iff :
    f.lowerSpill options v = .ok actions ↔
      (v.ty.isFlags = true ∧ options.gap ⟨"store flags", v.text⟩ = .ok actions) ∨
      (v.ty.isFlags = false ∧ ∃ width rs addr, v.ty.width = .ok width ∧
        f.argRegister v 0 = .ok rs ∧ f.slotAddress v = .ok addr ∧
        actions = [.emit (.store width rs addr)]) := by
  rw [lowerSpill]
  -- flags are not spilled, and all else is looked up in turn
  by_cases hFlags : v.ty.isFlags = true
  · simp only [hFlags, if_true, true_and, Bool.true_eq_false, false_and, or_false]
  · rw [Bool.not_eq_true] at hFlags
    simp only [hFlags, Bool.false_eq_true, if_false, false_and, false_or, true_and,
      bind_eq_ok_iff, pure_eq_ok_iff, eq_comm (a := actions), exists_and_left]

/-- A computation on two registers wants both of them and one for its result. -/
theorem lowerAlu_eq_ok_iff {op : AluOp} :
    f.lowerAlu op v = .ok actions ↔ ∃ rs1 rs2 rd, f.argRegister v 0 = .ok rs1 ∧
      f.argRegister v 1 = .ok rs2 ∧ v.reg = some rd ∧ actions = [.emit (.alu op rd rs1 rs2)] := by
  simp only [lowerAlu, bind_eq_ok_iff, pure_eq_ok_iff, Value.register_eq_ok_iff,
    eq_comm (a := actions), exists_and_left]

theorem lowerAluImm_eq_ok_iff {op : AluImmOp} :
    f.lowerAluImm op v = .ok actions ↔ ∃ rs1 rd, f.argRegister v 0 = .ok rs1 ∧
      v.reg = some rd ∧ actions = [.emit (.aluImm op rd rs1 v.auxInt)] := by
  simp only [lowerAluImm, bind_eq_ok_iff, pure_eq_ok_iff, Value.register_eq_ok_iff,
    eq_comm (a := actions), exists_and_left]

theorem lowerZeroTest_eq_ok_iff {test : ZeroTest} :
    f.lowerZeroTest test v = .ok actions ↔ ∃ rs rd, f.argRegister v 0 = .ok rs ∧
      v.reg = some rd ∧ actions = [.emit (.zeroTest test rd rs)] := by
  simp only [lowerZeroTest, bind_eq_ok_iff, pure_eq_ok_iff, Value.register_eq_ok_iff,
    eq_comm (a := actions), exists_and_left]

/-- The check of a base finds the register that is wanted in the first operand. -/
theorem checkBase_eq_ok_iff {want : Reg} :
    f.checkBase v want = .ok () ↔ f.argRegister v 0 = .ok want := by
  simp only [checkBase, bind_eq_ok_iff]
  constructor
  · -- the register found is compared with the one wanted
    rintro ⟨found, hFound, hSame⟩
    split at hSame
    · rename_i heq
      exact heq ▸ hFound
    · simp [throw, throwThe, MonadExceptOf.throw] at hSame
  · intro hFound
    exact ⟨want, hFound, by rw [if_pos rfl]; rfl⟩

/-- An address wants a base, which the option also checks, an offset in range and a register. -/
theorem lowerAddress_eq_ok_iff :
    f.lowerAddress options v = .ok actions ↔
      ∃ base addr rd, v.baseRegister = .ok base ∧
        (options.checkBaseReg = true → f.argRegister v 0 = .ok base) ∧
        v.address base = .ok addr ∧ v.reg = some rd ∧ actions = [.emit (.la rd addr)] := by
  simp only [lowerAddress, bind_eq_ok_iff]
  -- the option adds a condition on the base and changes nothing else
  refine exists_congr fun base => ?_
  by_cases hCheck : options.checkBaseReg = true
  · -- with the option, the check stands between the base and the address
    simp only [hCheck, if_true, bind_eq_ok_iff, pure_eq_ok_iff, Value.register_eq_ok_iff,
      true_implies, eq_comm (a := actions), exists_and_left]
    constructor
    · rintro ⟨hBase, ⟨⟨⟩, hFound, hRest⟩⟩
      exact ⟨hBase, checkBase_eq_ok_iff.mp hFound, hRest⟩
    · rintro ⟨hBase, hFound, hRest⟩
      exact ⟨hBase, (), checkBase_eq_ok_iff.mpr hFound, hRest⟩
  · simp only [hCheck, if_false, bind_eq_ok_iff, pure_eq_ok_iff, Value.register_eq_ok_iff,
      false_implies, true_and, eq_comm (a := actions), exists_and_left, Bool.false_eq_true]

/-- A load wants the width of its result, a base, an offset in range and a register. -/
theorem lowerLoad_eq_ok_iff :
    f.lowerLoad v = .ok actions ↔ ∃ width base addr rd, v.ty.width = .ok width ∧
      f.argRegister v 0 = .ok base ∧ v.address base = .ok addr ∧ v.reg = some rd ∧
      actions = [.emit (.load width rd addr)] := by
  simp only [lowerLoad, bind_eq_ok_iff, pure_eq_ok_iff, Value.register_eq_ok_iff,
    eq_comm (a := actions), exists_and_left]

/-- A store wants the width of what is stored, a base, an offset in range and the register of what
is stored. -/
theorem lowerStore_eq_ok_iff :
    f.lowerStore v = .ok actions ↔ ∃ stored width base addr rs, f.arg v 1 = .ok stored ∧
      stored.ty.width = .ok width ∧ f.argRegister v 0 = .ok base ∧ v.address base = .ok addr ∧
      stored.reg = some rs ∧ actions = [.emit (.store width rs addr)] := by
  simp only [lowerStore, bind_eq_ok_iff, pure_eq_ok_iff, Value.register_eq_ok_iff,
    eq_comm (a := actions), exists_and_left]

/-- An exit wants the register of its code, and then it is three instructions. -/
theorem lowerExit_eq_ok_iff :
    f.lowerExit v = .ok actions ↔ ∃ code, f.argRegister v 0 = .ok code ∧
      actions = [.emit (.mov .a0 code), .emit (.li .a7 exitCall), .emit .ecall] := by
  simp only [lowerExit, bind_eq_ok_iff, pure_eq_ok_iff, eq_comm (a := actions)]

/-! ## What values decide on -/

end Func

/-- Whether control always goes on to the next instruction. -/
def Inst.isStraight : Inst → Bool
  | branch _ _ _ | jump | undef | ret => false
  | _ => true

def Inst.isTransfer : Inst → Bool
  | branch _ _ _ | jump => true
  | _ => false

/-- Performing the action leaves control to the instructions that follow. -/
def Action.IsStraight : Action → Prop
  | emit inst => inst.isStraight = true
  | branch _ _ => False
  | gap _ | mark _ _ | note _ => True

namespace Func

variable {f : Func} {options : Options} {v : Value} {actions : List Action}

/-- What lowering a value can decide on: nothing, a remark, a mark, a gap if
gaps are no errors, or instructions after each of which the next one follows. -/
inductive ValueActions (options : Options) : List Action → Prop
  | nothing : ValueActions options []
  | note (n : Note) : ValueActions options [.note n]
  | mark (kind : MarkKind) (var : FrameVar) : ValueActions options [.mark kind var]
  | gap {g : Gap} : options.failOnGap = false → ValueActions options [.gap g]
  | code (insts : List Inst) : (∀ i ∈ insts, i.isStraight = true) →
      ValueActions options (insts.map .emit)

/-- A gap that is passed over is one of the things that lowering a value decides on. -/
theorem ValueActions.of_gap {g : Gap} (h : options.gap g = .ok actions) :
    ValueActions options actions := by
  obtain ⟨hGap, rfl⟩ := gap_eq_ok_iff.mp h
  exact .gap hGap

theorem ValueActions.emit {inst : Inst} (h : inst.isStraight = true) :
    ValueActions options [.emit inst] :=
  .code [inst] (by simpa using h)

/-- **Lowering a value decides on little:** nothing, a note, a mark, a gap if those are allowed, or
code that does not transfer control. -/
theorem lowerValue_valueActions (h : f.lowerValue options v = .ok actions) :
    ValueActions options actions := by
  -- one case for each lowering; its actions are read off its own lemma
  unfold lowerValue at h
  cases hOp : v.op with
  | initMem | arg | sp | sb | compare cond =>
    simp only [hOp, Except.ok.injEq] at h
    exact h ▸ .note _
  | phi =>
    simp only [hOp] at h
    obtain ⟨-, rfl⟩ := lowerPhi_eq_ok_iff.mp h
    exact .nothing
  | copy | movConvert =>
    simp only [hOp] at h
    obtain ⟨-, rfl⟩ | ⟨-, rs, rd, -, -, -, rfl⟩ := lowerCopy_eq_ok_iff.mp h
    · exact .nothing
    · rw [copyActions]
      split
      · exact .note _
      · exact .emit rfl
  | loadReg =>
    simp only [hOp] at h
    obtain ⟨-, hGap⟩ | ⟨-, width, a, addr, rd, -, -, -, -, rfl⟩ := lowerReload_eq_ok_iff.mp h
    · exact .of_gap hGap
    · exact .emit rfl
  | storeReg =>
    simp only [hOp] at h
    obtain ⟨-, hGap⟩ | ⟨-, width, rs, addr, -, -, -, rfl⟩ := lowerSpill_eq_ok_iff.mp h
    · exact .of_gap hGap
    · exact .emit rfl
  | mark kind =>
    simp only [hOp] at h
    obtain ⟨var, -, rfl⟩ := lowerMark_eq_ok_iff.mp h
    exact .mark kind var
  | generic op => simp [hOp] at h
  | alu op =>
    simp only [hOp] at h
    obtain ⟨rs1, rs2, rd, -, -, -, rfl⟩ := lowerAlu_eq_ok_iff.mp h
    exact .emit rfl
  | aluImm op =>
    simp only [hOp] at h
    obtain ⟨rs1, rd, -, -, rfl⟩ := lowerAluImm_eq_ok_iff.mp h
    exact .emit rfl
  | const size =>
    simp only [hOp] at h
    obtain ⟨rd, -, rfl⟩ := lowerConst_eq_ok_iff.mp h
    exact .emit rfl
  | movMem =>
    simp only [hOp] at h
    obtain ⟨base, addr, rd, -, -, -, -, rfl⟩ := lowerAddress_eq_ok_iff.mp h
    exact .emit rfl
  | movLoad =>
    simp only [hOp] at h
    obtain ⟨width, base, addr, rd, -, -, -, -, rfl⟩ := lowerLoad_eq_ok_iff.mp h
    exact .emit rfl
  | movStore =>
    simp only [hOp] at h
    obtain ⟨stored, width, base, addr, rs, -, -, -, -, -, rfl⟩ := lowerStore_eq_ok_iff.mp h
    exact .emit rfl
  | zeroTest test =>
    simp only [hOp] at h
    obtain ⟨rs, rd, -, -, rfl⟩ := lowerZeroTest_eq_ok_iff.mp h
    exact .emit rfl
  | nilCheck =>
    simp only [hOp] at h
    exact .of_gap h
  | exitProc =>
    simp only [hOp] at h
    obtain ⟨code, -, rfl⟩ := lowerExit_eq_ok_iff.mp h
    exact .code [.mov .a0 code, .li .a7 exitCall, .ecall] (by simp [Inst.isStraight])

/-- Lowering a value never moves control. -/
theorem lowerValue_straight (h : f.lowerValue options v = .ok actions) :
    ∀ a ∈ actions, a.IsStraight := by
  cases lowerValue_valueActions h with
  | nothing => simp
  | note n | mark kind var => simp [Action.IsStraight]
  | gap _ => simp [Action.IsStraight]
  | code insts hStraight => simpa [Action.IsStraight] using hStraight

/-- Lowering a value leaves a gap only if gaps are no errors. -/
theorem failOnGap_of_gap_mem {g : Gap} (h : f.lowerValue options v = .ok actions)
    (hg : .gap g ∈ actions) : options.failOnGap = false := by
  cases lowerValue_valueActions h with
  | gap hGap => exact hGap
  | _ => simp at hg

/-! ## Terminators -/

/-- The condition of a branch is that of its comparison. -/
theorem condition_eq_ok_iff {b : Block} {cond : Cond} :
    b.condition v = .ok cond ↔ v.op = .compare cond := by
  rw [Block.condition]
  split
  · rename_i h
    simp [h]
  · rename_i h
    simpa using h cond

theorem branchTargets_eq_ok_iff {b : Block} {yes no : BlockId} :
    b.branchTargets = .ok (yes, no) ↔ b.succs = [yes, no] := by
  rw [Block.branchTargets]
  split
  · rename_i h
    simp [h]
  · rename_i h
    simpa using h yes no

/-- The control value is one of the block, and its last. -/
theorem controlValue_eq_ok_iff {b : Block} :
    f.controlValue b = .ok v ↔ ∃ id, b.control = some id ∧ f.value? id = some v ∧
      v.block = b.id ∧ b.values.getLast? = some id := by
  rw [controlValue]
  cases hControl : b.control with
  | none => simp [throw, throwThe, MonadExceptOf.throw]
  | some id =>
    simp only [bind_eq_ok_iff, resolve_eq_ok_iff, Option.some.injEq, exists_eq_left']
    constructor
    · -- the owner is checked first, then the place in the schedule
      rintro ⟨v', hv', hChecks⟩
      split at hChecks
      · exact absurd hChecks throw_bind_ne_ok
      · rename_i hOwner
        split at hChecks
        · exact absurd hChecks throw_bind_ne_ok
        · rename_i hLast
          obtain rfl := pure_eq_ok_iff.mp hChecks
          exact ⟨hv', Decidable.not_not.mp hOwner, Decidable.not_not.mp hLast⟩
    · rintro ⟨hv, hOwner, hLast⟩
      exact ⟨v, hv, by simp [hOwner, hLast, pure, Except.pure]⟩

/-- What leaves a block that goes on to its only successor. -/
def gotoActions (succ : BlockId) (next : Option BlockId) : List Action :=
  if next = some succ then [.note (.fallsThrough succ)] else [.branch .jump succ]

/-- Going on wants a single successor, and then it jumps or falls through. -/
theorem lowerGoto_eq_ok_iff {b : Block} {next : Option BlockId} :
    b.lowerGoto next = .ok actions ↔
      ∃ succ, b.succs = [succ] ∧ actions = gotoActions succ next := by
  -- with one successor it cannot fail, so only their number is left to find
  have hOne : ∀ succ, b.succs = [succ] → b.lowerGoto next = .ok (gotoActions succ next) := by
    intro succ hSuccs
    simp only [Block.lowerGoto, hSuccs, gotoActions]
    split <;> rfl
  constructor
  · intro h
    -- with any other number of successors it fails
    obtain ⟨succ, hSuccs⟩ : ∃ succ, b.succs = [succ] := by
      rw [Block.lowerGoto] at h
      split at h
      · rename_i succ hSuccs
        exact ⟨succ, hSuccs⟩
      · simp at h
    rw [hOne succ hSuccs, Except.ok.injEq] at h
    exact ⟨succ, hSuccs, h.symm⟩
  · rintro ⟨succ, hSuccs, rfl⟩
    exact hOne succ hSuccs

/-- A branch wants a comparison for its control value, two successors and the registers of what is
compared. -/
theorem lowerBranch_eq_ok_iff {b : Block} {next : Option BlockId} :
    f.lowerBranch b next = .ok actions ↔
      ∃ v cond yes no rs1 rs2, f.controlValue b = .ok v ∧ v.op = .compare cond ∧
        b.succs = [yes, no] ∧ f.argRegister v 0 = .ok rs1 ∧ f.argRegister v 1 = .ok rs2 ∧
        actions = branchActions cond rs1 rs2 yes no next := by
  simp only [lowerBranch, bind_eq_ok_iff, pure_eq_ok_iff, condition_eq_ok_iff, Prod.exists,
    branchTargets_eq_ok_iff, eq_comm (a := actions), exists_and_left]

/-- The ways in which control leaves a block, each with its actions. -/
inductive Leaves (f : Func) (b : Block) (next : Option BlockId) : List Action → Prop
  | goto {succ : BlockId} : b.kind = .plain ∨ b.kind = .call ∨ b.kind = .check →
      b.succs = [succ] → Leaves f b next (gotoActions succ next)
  | exit : b.kind = .exit → Leaves f b next [.emit .undef]
  | ret : b.kind = .ret → Leaves f b next [.emit .ret]
  | branch {v : Value} {cond : Cond} {yes no : BlockId} {rs1 rs2 : Reg} :
      b.kind = .branch → f.controlValue b = .ok v → v.op = .compare cond →
      b.succs = [yes, no] → f.argRegister v 0 = .ok rs1 → f.argRegister v 1 = .ok rs2 →
      Leaves f b next (branchActions cond rs1 rs2 yes no next)

/-- **A terminator succeeds exactly where control leaves the block in a way of
its kind**, by the actions of that way. -/
theorem lowerTerminator_eq_ok_iff {b : Block} {next : Option BlockId} :
    f.lowerTerminator b next = .ok actions ↔ f.Leaves b next actions := by
  rw [lowerTerminator]
  constructor
  · intro h
    cases hKind : b.kind with
    | plain | call | check =>
      simp only [hKind] at h
      obtain ⟨succ, hSuccs, rfl⟩ := lowerGoto_eq_ok_iff.mp h
      exact .goto (by simp [hKind]) hSuccs
    | exit =>
      simp only [hKind, Except.ok.injEq] at h
      exact h ▸ .exit hKind
    | ret =>
      simp only [hKind, Except.ok.injEq] at h
      exact h ▸ .ret hKind
    | branch =>
      simp only [hKind] at h
      obtain ⟨v, cond, yes, no, rs1, rs2, hv, hOp, hSuccs, h1, h2, rfl⟩ :=
        lowerBranch_eq_ok_iff.mp h
      exact .branch hKind hv hOp hSuccs h1 h2
    | generic kind =>
      -- no lowering knows such a block
      simp [hKind] at h
  · rintro (⟨hKind, hSuccs⟩ | hKind | hKind | ⟨hKind, hv, hOp, hSuccs, h1, h2⟩)
    · rcases hKind with hKind | hKind | hKind <;>
        simpa only [hKind] using lowerGoto_eq_ok_iff.mpr ⟨_, hSuccs, rfl⟩
    · simp only [hKind]
    · simp only [hKind]
    · simpa only [hKind] using
        lowerBranch_eq_ok_iff.mpr ⟨_, _, _, _, _, _, hv, hOp, hSuccs, h1, h2, rfl⟩

end Func

end RiscvLowering
