import Mathlib.Algebra.Group.Nat.Defs
import RiscvLowering.Proofs.Machine

/-!
# RV64 — what instructions do to registers and memory

A state is what the integer registers and the bytes of memory hold. Registers are
words of 64 bits; register zero reads as zero, and what is written to it is lost.
Memory is little-endian: the byte at an address is the lowest of the access that
starts there, and addresses wrap around. A load extends what it reads by its
highest bit, as all loads do that lowering emits.

What the code does not say comes from a `Platform`: where the symbols of operands
lie, and what the system makes of a call.

Main results:

* `Registers.get_set`, `Memory.load_store` — what was written is what is read.
* `Platform.iterate_step` — the machine runs code as its instructions follow each
  other.
-/

namespace RiscvLowering

abbrev Word := BitVec 64

/-- The register that always reads as zero. -/
def Reg.zero : Reg := ⟨⟨0, by decide⟩⟩

/-! ## Arithmetic -/

/-- What the machine computes from two registers. -/
def AluOp.eval : AluOp → Word → Word → Word
  | add, x, y => x + y
  | sub, x, y => x - y
  | xor, x, y => x ^^^ y
  | or, x, y => x ||| y
  | and, x, y => x &&& y
  | slt, x, y => if x.slt y then 1 else 0
  | sltu, x, y => if x.ult y then 1 else 0

/-- A shift takes the six lowest bits of the constant. -/
def AluImmOp.eval : AluImmOp → Word → Int64 → Word
  | addi, x, n => x + n.toBitVec
  | xori, x, n => x ^^^ n.toBitVec
  | ori, x, n => x ||| n.toBitVec
  | andi, x, n => x &&& n.toBitVec
  | slli, x, n => x <<< (n.toBitVec.toNat % 64)

/-- What the machine makes of a test against zero. -/
def ZeroTest.eval : ZeroTest → Word → Word
  | seqz, x => if x = 0 then 1 else 0
  | snez, x => if x = 0 then 0 else 1

/-! ## Registers -/

/-- What the integer registers hold. -/
@[ext]
structure Registers where
  get : Reg → Word
  get_zero : get .zero = 0

namespace Registers

instance : Inhabited Registers := ⟨fun _ => 0, rfl⟩

/-- Writes a register; what is written to register zero is lost. -/
def set (regs : Registers) (r : Reg) (x : Word) : Registers where
  get q := if q = r ∧ r ≠ .zero then x else regs.get q
  get_zero := by
    split
    · rename_i h
      exact absurd h.1.symm h.2
    · exact regs.get_zero

variable (regs : Registers) {r q : Reg} {x : Word}

/-- What was written to a register is read from it, unless it is register zero. -/
@[simp]
theorem get_set (h : r ≠ .zero) : (regs.set r x).get r = x := by
  simp [set, h]

/-- The other registers are left alone. -/
@[simp]
theorem get_set_of_ne (h : q ≠ r) : (regs.set r x).get q = regs.get q := by
  simp [set, h]

/-- What is written to register zero is lost. -/
@[simp]
theorem set_zero : regs.set .zero x = regs := by
  ext q
  simp [set]

end Registers

/-! ## Memory -/

/-- What the bytes of memory hold. -/
abbrev Memory := Word → BitVec 8

namespace Memory

/-- The number in the `n` bytes from an address on, the lowest byte first. -/
def number (m : Memory) (a : Word) : Nat → Nat
  | 0 => 0
  | n + 1 => (m a).toNat + 256 * number m (a + 1) n

/-- What an access of a width reads, extended by its highest bit. -/
def load (m : Memory) (w : Width) (a : Word) : Word :=
  (BitVec.ofNat (8 * w.bytes) (m.number a w.bytes)).signExtend 64

/-- Writes the lowest bytes of a word, the lowest byte first. -/
def store (m : Memory) (w : Width) (a x : Word) : Memory := fun b =>
  if (b - a).toNat < w.bytes then BitVec.ofNat 8 (x.toNat / 256 ^ (b - a).toNat) else m b

variable (m : Memory) (w : Width) (a x : Word)

/-- The bytes of a store, from the byte `k` on, make up the part of the word that
starts there. -/
theorem number_store (k n : Nat) (h : k + n ≤ w.bytes) :
    (m.store w a x).number (a + BitVec.ofNat 64 k) n = x.toNat / 256 ^ k % 256 ^ n := by
  have hBytes : w.bytes ≤ 8 := by cases w <;> decide
  induction n generalizing k with
  | zero => simp [number, Nat.mod_one]
  | succ n ih =>
    -- the byte is at this distance from the start of the access
    have hOffset : (a + BitVec.ofNat 64 k - a).toNat = k := by
      rw [BitVec.add_comm, BitVec.add_sub_cancel, BitVec.toNat_ofNat]
      omega
    -- so it is the byte of the word at this place
    have hByte : m.store w a x (a + BitVec.ofNat 64 k) = BitVec.ofNat 8 (x.toNat / 256 ^ k) := by
      rw [store, hOffset, if_pos (by omega)]
    have hNext : a + BitVec.ofNat 64 k + 1 = a + BitVec.ofNat 64 (k + 1) := by
      rw [BitVec.add_assoc, BitVec.ofNat_add]
      rfl
    -- the lowest byte and the rest make up the number
    rw [number, hByte, hNext, ih (k + 1) (by omega), BitVec.toNat_ofNat, Nat.pow_succ 256 k,
      ← Nat.div_div_eq_div_mul, Nat.pow_succ' (m := 256) (n := n), Nat.mod_mul]

/-- **A load reads the bytes that a store of its width wrote**, extended by their
highest bit. -/
theorem load_store : (m.store w a x).load w a = (x.setWidth (8 * w.bytes)).signExtend 64 := by
  have hNumber := m.number_store w a x 0 w.bytes (by omega)
  rw [BitVec.add_zero, Nat.pow_zero, Nat.div_one] at hNumber
  have hLow : BitVec.ofNat (8 * w.bytes) (x.toNat % 256 ^ w.bytes) = x.setWidth (8 * w.bytes) := by
    apply BitVec.eq_of_toNat_eq
    rw [BitVec.toNat_ofNat, BitVec.toNat_setWidth, Nat.pow_mul, Nat.mod_mod]
  rw [load, hNumber, hLow]

end Memory

/-! ## Instructions -/

structure State where
  regs : Registers
  memory : Memory

instance : Inhabited State := ⟨default, fun _ => 0⟩

/-- Writes a register. -/
def State.setReg (σ : State) (r : Reg) (x : Word) : State := { σ with regs := σ.regs.set r x }

/-- What code leaves to the place where it runs. -/
structure Platform where
  /-- Where the symbol of an operand lies, from the registers: off a base register
  that the operand has, or by the frame. -/
  place : Registers → Option Reg → Symbol → Word
  /-- What the system makes of a call. -/
  call : State → State

instance : Inhabited Platform := ⟨fun _ _ _ => 0, id⟩

namespace Platform

variable (p : Platform)

/-- The address of an operand of memory. -/
def address (regs : Registers) (addr : Address) : Word :=
  p.place regs addr.base addr.symbol + addr.offset.toBitVec

/-- What an instruction does to the state. -/
def effect : Inst → State → State
  | .alu op rd rs1 rs2, σ => σ.setReg rd (op.eval (σ.regs.get rs1) (σ.regs.get rs2))
  | .aluImm op rd rs n, σ => σ.setReg rd (op.eval (σ.regs.get rs) n)
  | .li rd n, σ => σ.setReg rd n.toBitVec
  | .mov rd rs, σ => σ.setReg rd (σ.regs.get rs)
  | .la rd addr, σ => σ.setReg rd (p.address σ.regs addr)
  | .load w rd addr, σ => σ.setReg rd (σ.memory.load w (p.address σ.regs addr))
  | .store w rs addr, σ =>
    { σ with memory := σ.memory.store w (p.address σ.regs addr) (σ.regs.get rs) }
  | .zeroTest test rd rs, σ => σ.setReg rd (test.eval (σ.regs.get rs))
  | .ecall, σ => p.call σ
  | .branch _ _ _, σ | .jump, σ | .undef, σ | .ret, σ => σ

/-- The machine that runs lowered code. -/
def rv64 : Machine State where
  read σ := σ.regs.get
  effect := p.effect

/-- The state after instructions that follow each other. -/
def run : List Inst → State → State
  | [], σ => σ
  | inst :: insts, σ => run insts (p.effect inst σ)

/-- The state in which instructions that follow each other first call the system. -/
def atCall? : List Inst → State → Option State
  | [], _ => none
  | .ecall :: _, σ => some σ
  | inst :: insts, σ => atCall? insts (p.effect inst σ)

/-- **The machine runs instructions that stand in its code and do not move control
as they follow each other.** -/
theorem iterate_step {out : Output} {pc : Nat} {insts : List Inst} (σ : State)
    (hCode : ∀ k inst, insts[k]? = some inst → out.inst? (pc + k) = some inst)
    (hStraight : ∀ inst ∈ insts, inst.isStraight = true) :
    (p.rv64.step out)^[insts.length] (.running pc σ) =
      .running (pc + insts.length) (p.run insts σ) := by
  induction insts generalizing pc σ with
  | nil => rfl
  | cons inst insts ih =>
    have hStep := Machine.step_straight (m := p.rv64) (s := σ) (hCode 0 inst rfl)
      (hStraight inst List.mem_cons_self)
    -- behind the first instruction stands the rest of the code
    have hNext : ∀ k inst', insts[k]? = some inst' → out.inst? (pc + 1 + k) = some inst' := by
      intro k inst' h
      rw [Nat.add_assoc, Nat.add_comm 1]
      exact hCode (k + 1) inst' h
    have hRest := ih (p.effect inst σ) hNext fun inst' h =>
      hStraight inst' (List.mem_cons_of_mem inst h)
    rw [List.length_cons, Function.iterate_succ_apply]
    rw [Nat.add_zero] at hStep
    rw [hStep, Nat.add_comm insts.length, ← Nat.add_assoc]
    exact hRest

end Platform

end RiscvLowering
