import RiscvLowering.Command.Demo
import RiscvLowering.Proofs.Emission
import RiscvLowering.Proofs.Rv64

/-!
# Computation — what the code of a value computes

The result of an operation is said in numbers, with and without sign, and in
bits: a sum modulo 2 to the 64th, a comparison of signed numbers, and so on. The
code of a value that computes a register leaves this result in the register of
the value and leaves everything else as it was, whichever registers the value and
its arguments share and whether one of them is register zero.

Main results:

* `AluOp.eval_gives`, `AluImmOp.eval_gives`, `ZeroTest.eval_gives` — the machine
  computes the results of the operations.
* `Func.Emits.computes` — so does the code of a value.
* `lowered_values_compute` — with it, what the code of a value does that computes
  a register, copies memory or ends the process.
-/

namespace RiscvLowering

/-! ## Results of operations -/

/-- `z` is the result of the operation on `x` and `y`. -/
def AluOp.Gives : AluOp → Word → Word → Word → Prop
  | add, x, y, z => z.toNat = (x.toNat + y.toNat) % 2 ^ 64
  | sub, x, y, z => (z.toNat + y.toNat) % 2 ^ 64 = x.toNat
  | xor, x, y, z => ∀ i < 64, z.getLsbD i = (x.getLsbD i != y.getLsbD i)
  | or, x, y, z => ∀ i < 64, z.getLsbD i = (x.getLsbD i || y.getLsbD i)
  | and, x, y, z => ∀ i < 64, z.getLsbD i = (x.getLsbD i && y.getLsbD i)
  | slt, x, y, z => z.toNat = if x.toInt < y.toInt then 1 else 0
  | sltu, x, y, z => z.toNat = if x.toNat < y.toNat then 1 else 0

/-- `z` is the result of the operation on `x` and the constant `n`. Of a shift by
another amount than 0 to 63 nothing is said. -/
def AluImmOp.Gives : AluImmOp → Word → Int64 → Word → Prop
  | addi, x, n, z => z.toInt = (x.toInt + n.toInt).bmod (2 ^ 64)
  | xori, x, n, z => ∀ i < 64, z.getLsbD i = (x.getLsbD i != n.toBitVec.getLsbD i)
  | ori, x, n, z => ∀ i < 64, z.getLsbD i = (x.getLsbD i || n.toBitVec.getLsbD i)
  | andi, x, n, z => ∀ i < 64, z.getLsbD i = (x.getLsbD i && n.toBitVec.getLsbD i)
  | slli, x, n, z =>
    0 ≤ n.toInt → n.toInt < 64 → z.toNat = x.toNat * 2 ^ n.toInt.toNat % 2 ^ 64

/-- `z` is the result of the test of `x`. -/
def ZeroTest.Gives : ZeroTest → Word → Word → Prop
  | seqz, x, z => z.toNat = if x.toNat = 0 then 1 else 0
  | snez, x, z => z.toNat = if x.toNat = 0 then 0 else 1

/-- What the machine computes from two registers is the result of the operation, modulo 2 to the
64th. -/
theorem AluOp.eval_gives (op : AluOp) (x y : Word) : op.Gives x y (op.eval x y) := by
  -- sums and differences as numbers, logic bit by bit, comparisons as they are
  cases op with
  | add => exact BitVec.toNat_add x y
  | sub =>
    show ((x - y).toNat + y.toNat) % 2 ^ 64 = x.toNat
    rw [← BitVec.toNat_add, BitVec.sub_add_cancel]
  | xor => exact fun i hi => by simp [eval]
  | or => exact fun i hi => by simp [eval]
  | and => exact fun i hi => by simp [eval]
  | slt =>
    show (if x.slt y then (1 : Word) else 0).toNat = _
    rw [BitVec.slt_eq_decide]
    by_cases h : x.toInt < y.toInt <;> simp [h]
  | sltu =>
    show (if x.ult y then (1 : Word) else 0).toNat = _
    rw [BitVec.ult_eq_decide]
    by_cases h : x.toNat < y.toNat <;> simp [h]

/-- What the machine computes with a constant is the result of the operation. -/
theorem AluImmOp.eval_gives (op : AluImmOp) (x : Word) (n : Int64) :
    op.Gives x n (op.eval x n) := by
  cases op with
  | addi => exact BitVec.toInt_add x n.toBitVec
  | xori => exact fun i hi => by simp [eval]
  | ori => exact fun i hi => by simp [eval]
  | andi => exact fun i hi => by simp [eval]
  | slli =>
    intro hLow hHigh
    -- a constant of this range is its own amount
    have hAmount : n.toBitVec.toNat % 64 = n.toInt.toNat := by
      have hInt : n.toInt =
          if 2 * n.toBitVec.toNat < 2 ^ 64 then (n.toBitVec.toNat : Int)
          else n.toBitVec.toNat - 2 ^ 64 := BitVec.toInt_eq_toNat_cond n.toBitVec
      have hBound := n.toBitVec.isLt
      split at hInt <;> omega
    show (x <<< (n.toBitVec.toNat % 64)).toNat = _
    rw [hAmount, BitVec.toNat_shiftLeft, Nat.shiftLeft_eq]

/-- What the machine makes of a test is 1 where it holds and 0 where not. -/
theorem ZeroTest.eval_gives (test : ZeroTest) (x : Word) : test.Gives x (test.eval x) := by
  -- a word is 0 if its number is
  have hZero : x = 0 ↔ x.toNat = 0 := by
    rw [← BitVec.toNat_inj]
    rfl
  cases test with
  | seqz =>
    show (if x = 0 then (1 : Word) else 0).toNat = _
    simp only [hZero]
    split <;> rfl
  | snez =>
    show (if x = 0 then (0 : Word) else 1).toNat = _
    simp only [hZero]
    split <;> rfl

/-! ## Results of values -/

/-- The operation of the value computes a register. -/
def Value.ComputesRegister (v : Value) : Prop :=
  match v.op with
  | .copy | .movConvert => v.ty ≠ .mem
  | .alu _ | .aluImm _ | .const _ | .zeroTest _ => True
  | _ => False

namespace Func

/-- The argument lies in a register that holds `x`. -/
def ArgHolds (f : Func) (regs : Registers) (v : Value) (index : Nat) (x : Word) : Prop :=
  ∃ r, f.HasArgIn v index r ∧ x = regs.get r

/-- `z` is the result of the value where the registers hold its arguments. -/
inductive Computes (f : Func) (regs : Registers) (v : Value) (z : Word) : Prop
  | copy : v.op = .copy ∨ v.op = .movConvert → f.ArgHolds regs v 0 z → Computes f regs v z
  | alu {op : AluOp} {x y : Word} : v.op = .alu op → f.ArgHolds regs v 0 x →
      f.ArgHolds regs v 1 y → op.Gives x y z → Computes f regs v z
  | aluImm {op : AluImmOp} {x : Word} : v.op = .aluImm op → f.ArgHolds regs v 0 x →
      op.Gives x v.auxInt z → Computes f regs v z
  | const {size : ConstSize} : v.op = .const size → z.toInt = v.auxInt.toInt →
      Computes f regs v z
  | zeroTest {test : ZeroTest} {x : Word} : v.op = .zeroTest test → f.ArgHolds regs v 0 x →
      test.Gives x z → Computes f regs v z

end Func

/-- From one state to the other the register gets the word and nothing else changes.
Register zero gets nothing. -/
structure State.Sets (σ σ' : State) (r : Reg) (x : Word) : Prop where
  result : r ≠ .zero → σ'.regs.get r = x
  others : ∀ q, q ≠ r → σ'.regs.get q = σ.regs.get q
  memory : σ'.memory = σ.memory

/-- Writing a register sets that one and nothing else. -/
theorem State.sets_setReg (σ : State) (r : Reg) (x : Word) : σ.Sets (σ.setReg r x) r x where
  result := σ.regs.get_set
  others _ := σ.regs.get_set_of_ne
  memory := rfl

/-- A register that has the word already gets it by itself. -/
theorem State.sets_get (σ : State) (r : Reg) : σ.Sets σ r (σ.regs.get r) where
  result _ := rfl
  others _ _ := rfl
  memory := rfl

namespace Func.Emits

variable {f : Func} {v : Value} {insts : List Inst}

/-- **The code of a value that computes a register computes the result.** -/
theorem computes (h : f.Emits v insts) (hComputes : v.ComputesRegister) (p : Platform)
    (σ : State) : ∃ rd z, v.reg = some rd ∧ f.Computes σ.regs v z ∧
      σ.Sets (p.run insts σ) rd z := by
  cases h with
  | @copy rs rd hOp hTy hArg hReg =>
    refine ⟨rd, σ.regs.get rs, hReg, .copy hOp ⟨rs, hArg, rfl⟩, ?_⟩
    -- a move that is left out would have changed nothing
    split
    · rename_i hSame
      exact hSame ▸ σ.sets_get rs
    · exact σ.sets_setReg rd (σ.regs.get rs)
  | alu hOp h1 h2 hReg =>
    exact ⟨_, _, hReg, .alu hOp ⟨_, h1, rfl⟩ ⟨_, h2, rfl⟩ (AluOp.eval_gives _ _ _),
      σ.sets_setReg _ _⟩
  | aluImm hOp hArg hReg =>
    exact ⟨_, _, hReg, .aluImm hOp ⟨_, hArg, rfl⟩ (AluImmOp.eval_gives _ _ _), σ.sets_setReg _ _⟩
  | const hOp hReg => exact ⟨_, _, hReg, .const hOp rfl, σ.sets_setReg _ _⟩
  | zeroTest hOp hArg hReg =>
    exact ⟨_, _, hReg, .zeroTest hOp ⟨_, hArg, rfl⟩ (ZeroTest.eval_gives _ _), σ.sets_setReg _ _⟩
  | silent hSilent =>
    -- only a copy of memory takes no code, and it computes no register
    simp only [Value.IsSilent] at hSilent
    simp only [Value.ComputesRegister] at hComputes
    split at hSilent <;> simp_all
  | exit hOp | reload hOp | spill hOp | address hOp | load hOp | store hOp =>
    simp [Value.ComputesRegister, hOp] at hComputes

/-- The code of a copy of memory is empty. -/
theorem eq_nil_of_copy_mem (h : f.Emits v insts) (hOp : v.op = .copy ∨ v.op = .movConvert)
    (hTy : v.ty = .mem) : insts = [] := by
  cases h with
  | silent => rfl
  | copy _ hNot => exact absurd hTy hNot
  | alu h | aluImm h | const h | zeroTest h | exit h | reload h | spill h | address h | load h
  | store h => simp [h] at hOp

/-- **Where the process ends, its exit code is the argument.** The code is moved
before the number of the call is loaded, so it may come from the register of the
number. -/
theorem exits (h : f.Emits v insts) (hOp : v.op = .exitProc) (p : Platform) (σ : State) :
    ∃ code σ', f.ArgHolds σ.regs v 0 code ∧ p.atCall? insts σ = some σ' ∧
      σ'.regs.get .a7 = 94 ∧ σ'.regs.get .a0 = code ∧ σ'.memory = σ.memory ∧
      ∀ q, q ≠ .a0 → q ≠ .a7 → σ'.regs.get q = σ.regs.get q := by
  cases h with
  | @exit code _ hArg =>
    refine ⟨_, _, ⟨code, hArg, rfl⟩, rfl, ?_, ?_, rfl, ?_⟩
    · exact Registers.get_set _ (by decide)
    · rw [← Registers.get_set σ.regs (r := .a0) (x := σ.regs.get code) (by decide)]
      -- loading the number of the call leaves the code in its register
      exact Registers.get_set_of_ne _ (by decide)
    · intro q h0 h7
      rw [← Registers.get_set_of_ne σ.regs (x := σ.regs.get code) h0]
      exact Registers.get_set_of_ne _ h7
  | silent hSilent => simp [Value.IsSilent, hOp] at hSilent
  | copy h => simp [hOp] at h
  | alu h | aluImm h | const h | zeroTest h | reload h | spill h | address h | load h
  | store h => simp [h] at hOp

end Func.Emits

/-- **What the code of a value computes.** In any state of the machine, the code
of a value that computes a register leaves the result of the operation in it and
changes nothing else; a copy of memory changes nothing; and the end of the process
calls the system for it, with the argument as exit code and with all other
registers and memory as they were. -/
theorem lowered_values_compute (s : Session) (v : Value) (h : (s.lowerValue v).2 = .ok ())
    (p : Platform) (σ : State) :
    (v.ComputesRegister → ∃ rd z, v.reg = some rd ∧ s.func.Computes σ.regs v z ∧
      σ.Sets (p.run (s.emitted v) σ) rd z) ∧
    (v.op = .copy ∨ v.op = .movConvert → v.ty = .mem → p.run (s.emitted v) σ = σ) ∧
    (v.op = .exitProc → ∃ code σ', s.func.ArgHolds σ.regs v 0 code ∧
      p.atCall? (s.emitted v) σ = some σ' ∧ σ'.regs.get .a7 = 94 ∧ σ'.regs.get .a0 = code ∧
      σ'.memory = σ.memory ∧ ∀ q, q ≠ .a0 → q ≠ .a7 → σ'.regs.get q = σ.regs.get q) := by
  -- all three follow from what the value emits
  have hEmits := Session.emits_of_end h
  refine ⟨fun hComputes => hEmits.computes hComputes p σ, fun hOp hTy => ?_,
    fun hOp => hEmits.exits hOp p σ⟩
  rw [hEmits.eq_nil_of_copy_mem hOp hTy]
  rfl

/-- The last value of the function that ends the process. -/
def Demo.quit : Value :=
  { id := 2, op := .exitProc, ty := .mem, args := [1, 0], block := 0, line := ⟨1⟩ }

/-- Ending the process with 42 leaves the number of the call and the code in their registers. -/
theorem lowered_values_compute_quit :
    ((Session.fresh Demo.exit {}).lowerValue Demo.quit).2 = .ok () ∧
    ∃ σ', (default : Platform).atCall? ((Session.fresh Demo.exit {}).emitted Demo.quit)
        ((default : State).setReg .s1 42) = some σ' ∧
      σ'.regs.get .a7 = 94 ∧ σ'.regs.get .a0 = 42 := by
  have hEnd : ((Session.fresh Demo.exit {}).lowerValue Demo.quit).2 = .ok () := rfl
  obtain ⟨code, σ', ⟨r, ⟨a, ⟨id, hId, hValue⟩, hReg⟩, rfl⟩, hCall, hNumber, hCode, -, -⟩ :=
    (lowered_values_compute _ _ hEnd default ((default : State).setReg .s1 42)).2.2 rfl
  -- the argument is the constant, which lies in its register
  obtain rfl := Option.some.inj hId
  obtain rfl := Option.some.inj hValue
  obtain rfl := Option.some.inj hReg
  exact ⟨hEnd, σ', hCall, hNumber, hCode⟩

end RiscvLowering
