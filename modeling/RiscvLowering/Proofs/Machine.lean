import Mathlib.Logic.Function.Iterate
import RiscvLowering.Proofs.Layout

/-!
# Machine — runs of lowered code and runs over blocks

Lowered code is run by a machine with a program counter: a pending branch goes
to the start of its block, and an instruction that does not move control does
to the state whatever the machine makes of it. A run over blocks does the same
with the code of one block at a time, and reads off the block itself, not off
its code, where control goes next.

Main results:

* `Cond.holds_invert` — the inverted comparison holds exactly where the
  comparison does not.
* `Machine.step_straight`, `step_branch`, `step_jump`, `step_stop` — what the
  machine does, by the instruction that it stands at.
* `leave_goto`, `leave_branch` — where control goes from a block.
-/

namespace RiscvLowering

/-! ## Comparisons -/

namespace Cond

/-- Whether the comparison of two words holds. -/
def holds : Cond → BitVec 64 → BitVec 64 → Bool
  | eq, x, y => x == y
  | ne, x, y => x != y
  | lt, x, y => x.slt y
  | ltu, x, y => x.ult y
  | ge, x, y => y.sle x
  | geu, x, y => y.ule x

/-- **The inverted comparison holds exactly where the comparison does not.** -/
theorem holds_invert (c : Cond) (x y : BitVec 64) : c.invert.holds x y = !c.holds x y := by
  -- of each pair of orders the second is stated as "at most" with the operands exchanged
  cases c with
  | eq => rfl
  | ne => exact (Bool.not_not _).symm
  | lt => exact BitVec.sle_eq_not_slt
  | ge =>
    show x.slt y = !y.sle x
    rw [BitVec.sle_eq_not_slt, Bool.not_not]
  | ltu => exact BitVec.ule_eq_not_ult y x
  | geu =>
    show x.ult y = !y.ule x
    rw [BitVec.ule_eq_not_ult, Bool.not_not]

end Cond

/-! ## The machine -/

/-- What a machine is besides its program counter: what its registers hold, and
what it makes of an instruction that does not move control. -/
structure Machine (σ : Type) where
  read : σ → Reg → BitVec 64
  effect : Inst → σ → σ

/-- Where a run of code stands. -/
inductive CodePoint (σ : Type) where
  | running (pc : Nat) (s : σ)
  /-- Stopped by an instruction. -/
  | stopped (inst : Inst) (s : σ)
  /-- The code does not say how to go on. -/
  | lost

namespace Output

def inst? (out : Output) (pc : Nat) : Option Inst := out.code[pc]?.map (·.inst)

/-- Where the pending branch at an index goes: to the recorded start of its target. -/
def destination (out : Output) (pc : Nat) : Option Nat := do
  let q ← out.branches.find? (·.index = pc)
  let start ← out.starts.find? (·.block = q.target)
  return start.index

def take {σ : Type} (out : Output) (pc : Nat) (s : σ) : CodePoint σ :=
  match out.destination pc with
  | some start => .running start s
  | none => .lost

end Output

namespace Machine

variable {σ : Type}

/-- The step of the machine. -/
def step (m : Machine σ) (out : Output) : CodePoint σ → CodePoint σ
  | .running pc s =>
    match out.inst? pc with
    | none => .lost
    | some (.branch cond rs1 rs2) =>
      -- where a branch goes is looked up in the table of branches
      if cond.holds (m.read s rs1) (m.read s rs2) then out.take pc s else .running (pc + 1) s
    | some .jump => out.take pc s
    | some .ret => .stopped .ret s
    | some .undef => .stopped .undef s
    | some inst => .running (pc + 1) (m.effect inst s)
  | .stopped inst s => .stopped inst s
  | .lost => .lost

variable {m : Machine σ} {out : Output} {pc dest : Nat} {s : σ}

/-- An instruction that transfers nothing is done, and the next one follows. -/
theorem step_straight {inst : Inst} (hInst : out.inst? pc = some inst)
    (hStraight : inst.isStraight = true) :
    m.step out (.running pc s) = .running (pc + 1) (m.effect inst s) := by
  rw [step, hInst]
  -- the machine treats branches, jumps and ends by themselves, and any other instruction alike
  cases inst with
  | branch | jump | undef | ret => exact absurd hStraight (by simp [Inst.isStraight])
  | _ => rfl

/-- A branch goes to the start of its block where the comparison holds, and else to the next
instruction. -/
theorem step_branch {cond : Cond} {rs1 rs2 : Reg}
    (hInst : out.inst? pc = some (.branch cond rs1 rs2)) (hDest : out.destination pc = some dest) :
    m.step out (.running pc s) =
      .running (if cond.holds (m.read s rs1) (m.read s rs2) then dest else pc + 1) s := by
  rw [step, hInst]
  -- it goes to its block where the comparison holds
  show (if _ then out.take pc s else _) = _
  rw [Output.take, hDest]
  split <;> rfl

theorem step_jump (hInst : out.inst? pc = some .jump) (hDest : out.destination pc = some dest) :
    m.step out (.running pc s) = .running dest s := by
  rw [step, hInst]
  show out.take pc s = _
  rw [Output.take, hDest]

/-- A return and an undefined instruction end the run. -/
theorem step_stop {inst : Inst} (hInst : out.inst? pc = some inst)
    (hStop : inst = .ret ∨ inst = .undef) :
    m.step out (.running pc s) = .stopped inst s := by
  rcases hStop with rfl | rfl <;> rw [step, hInst]

end Machine

/-! ## Runs over blocks -/

/-- Where a run over the blocks of a function stands. -/
inductive BlockPoint (σ : Type) where
  /-- In a block, with some of the code of its schedule still to run. -/
  | inside (b : Block) (todo : List Inst) (s : σ)
  /-- Stopped at the end of a block. -/
  | stopped (inst : Inst) (s : σ)
  /-- The function does not say how to go on. -/
  | lost

namespace Func

variable {σ : Type}

/-- Goes to the beginning of the block of an id. -/
def enter (f : Func) (options : Options) (id : BlockId) (s : σ) : BlockPoint σ :=
  match f.block? id with
  | some b => .inside b (f.bodyCode options b) s
  | none => .lost

/-- The comparison that a block decides by: that of its control value, on the
registers of the first two arguments. -/
def comparison? (f : Func) (b : Block) : Option (Cond × Reg × Reg) := do
  let v ← f.value? (← b.control)
  let .compare cond := v.op | none
  let rs1 ← (← f.value? (← v.args[0]?)).reg
  let rs2 ← (← f.value? (← v.args[1]?)).reg
  return (cond, rs1, rs2)

/-- Goes on from the end of a block. A branch goes to the first successor if its
comparison holds, and to the second if not. -/
def leave (f : Func) (options : Options) (m : Machine σ) (b : Block) (s : σ) : BlockPoint σ :=
  match b.kind, b.succs with
  | .plain, [succ] | .call, [succ] | .check, [succ] => f.enter options succ s
  | .branch, [yes, no] =>
    match f.comparison? b with
    | some (cond, rs1, rs2) =>
      f.enter options (if cond.holds (m.read s rs1) (m.read s rs2) then yes else no) s
    | none => .lost
  -- these leave the function, whatever successors they have
  | .ret, _ => .stopped .ret s
  | .exit, _ => .stopped .undef s
  | _, _ => .lost

/-- The step of a run over blocks: the next instruction of the schedule, or out
of the block. -/
def blockStep (f : Func) (options : Options) (m : Machine σ) : BlockPoint σ → BlockPoint σ
  | .inside b (inst :: todo) s => .inside b todo (m.effect inst s)
  | .inside b [] s => f.leave options m b s
  | .stopped inst s => .stopped inst s
  | .lost => .lost

variable {f : Func} {options : Options} {m : Machine σ} {b : Block} {s : σ}

/-- A block that goes on enters its only successor. -/
theorem leave_goto {succ : BlockId} (hKind : b.kind = .plain ∨ b.kind = .call ∨ b.kind = .check)
    (hSuccs : b.succs = [succ]) : f.leave options m b s = f.enter options succ s := by
  rcases hKind with hKind | hKind | hKind <;> rw [leave, hKind, hSuccs]

/-- The comparison of a branch is that of its control value, on the registers of its operands. -/
theorem comparison?_eq_some {v : Value} {cond : Cond} {rs1 rs2 : Reg}
    (hControl : f.controlValue b = .ok v) (hOp : v.op = .compare cond)
    (h1 : f.argRegister v 0 = .ok rs1) (h2 : f.argRegister v 1 = .ok rs2) :
    f.comparison? b = some (cond, rs1, rs2) := by
  -- what lowering found is what the block itself says
  obtain ⟨id, hId, hv, -, -⟩ := controlValue_eq_ok_iff.mp hControl
  obtain ⟨x, hx, hReg1⟩ := argRegister_eq_ok_iff.mp h1
  obtain ⟨y, hy, hReg2⟩ := argRegister_eq_ok_iff.mp h2
  obtain ⟨idx, hIdx, hx⟩ := arg_eq_ok_iff.mp hx
  obtain ⟨idy, hIdy, hy⟩ := arg_eq_ok_iff.mp hy
  simp only [comparison?, hId, hv, hOp, hIdx, hIdy, hx, hy, hReg1, hReg2, Option.bind_eq_bind,
    Option.bind_some, Option.pure_def]

/-- A branch enters its first successor where the comparison holds, and else the second. -/
theorem leave_branch {cond : Cond} {rs1 rs2 : Reg} {yes no : BlockId} (hKind : b.kind = .branch)
    (hSuccs : b.succs = [yes, no]) (hComparison : f.comparison? b = some (cond, rs1, rs2)) :
    f.leave options m b s =
      f.enter options (if cond.holds (m.read s rs1) (m.read s rs2) then yes else no) s := by
  rw [leave, hKind, hSuccs, hComparison]

theorem leave_stop {inst : Inst} (hStop : b.kind = .ret ∧ inst = .ret ∨
    b.kind = .exit ∧ inst = .undef) : f.leave options m b s = .stopped inst s := by
  rcases hStop with ⟨hKind, rfl⟩ | ⟨hKind, rfl⟩ <;> rw [leave, hKind]

end Func

end RiscvLowering
