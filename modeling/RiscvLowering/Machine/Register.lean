/-!
# Integer registers

The 32 integer registers of RV64. The register allocator numbers them as the hardware does, so a
register is one number with two texts: `r10` where the allocator's choice is shown, `a0` in
assembly.
-/

namespace RiscvLowering

/-- An integer register, given by its number. -/
structure Reg where
  number : Fin 32
deriving DecidableEq

namespace Reg

/-- The stack pointer, base of this function's frame. -/
def sp : Reg := ⟨2⟩

/-- The global pointer, base of global symbols. -/
def gp : Reg := ⟨3⟩

/-- The first argument register, which carries an exit code. -/
def a0 : Reg := ⟨10⟩

def a1 : Reg := ⟨11⟩

/-- The register that carries a system call's number. -/
def a7 : Reg := ⟨17⟩

/-! Registers for intermediate values. -/

def t0 : Reg := ⟨5⟩

def t1 : Reg := ⟨6⟩

def t2 : Reg := ⟨7⟩

/-- The second of the registers that a call keeps. -/
def s1 : Reg := ⟨9⟩

/-- The names of the calling convention, by register number. -/
def abiNames : Vector String 32 := #v[
  "zero", "ra", "sp", "gp", "tp", "t0", "t1", "t2",
  "s0", "s1", "a0", "a1", "a2", "a3", "a4", "a5",
  "a6", "a7", "s2", "s3", "s4", "s5", "s6", "s7",
  "s8", "s9", "s10", "s11", "t3", "t4", "t5", "t6"]

def abiName (r : Reg) : String := abiNames[r.number]

/-- The name that the allocator uses: `r10` for register 10. -/
def allocatorName (r : Reg) : String := "r" ++ r.number.val.repr

/-- A number that names no register. -/
structure OutOfRange where
  number : Nat
deriving DecidableEq

def OutOfRange.message (e : OutOfRange) : String :=
  "register index " ++ e.number.repr ++ " out of range 0..32"

/-- The register of a number. -/
def ofNat (n : Nat) : Except OutOfRange Reg :=
  if h : n < 32 then .ok ⟨⟨n, h⟩⟩ else .error ⟨n⟩

/-- The number of a register names it. -/
theorem ofNat_number (r : Reg) : ofNat r.number.val = .ok r := by
  simp [ofNat, r.number.isLt]

end Reg

end RiscvLowering
