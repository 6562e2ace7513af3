import RiscvLowering.Ssa.Builder

/-!
# Demonstrations

Functions that are built in, to try lowering without a document at hand.
-/

namespace RiscvLowering.Demo

open Builder

/-- A signed integer of eight bytes. -/
def int64 : Ty := .int 8 true

/-- Ends the process with exit code 42. -/
def exit : Func := build "main" do
  let entry ← block .exit
  let mem ← value { block := entry, op := .initMem, ty := .mem }
  let code ← value
    { block := entry, op := .const .quad, ty := int64, auxInt := 42, line := ⟨1⟩, reg := some .s1 }
  let _ ← value
    { block := entry, op := .exitProc, ty := .mem, args := [code, mem], line := ⟨1⟩ }

/-- Returns the larger of two arguments. -/
def max : Func := build "max" do
  let entry ← block .branch
  let takeY ← block .plain
  let done ← block .ret
  let x ← value { block := entry, op := .arg, ty := int64, reg := some .a0 }
  let y ← value { block := entry, op := .arg, ty := int64, reg := some .a1 }
  let ge ← value { block := entry, op := .compare .ge, ty := .flags, args := [x, y], line := ⟨2⟩ }
  control entry ge
  edge entry done
  edge entry takeY
  blockLine entry ⟨2⟩
  let _ ← value
    { block := takeY, op := .copy, ty := int64, args := [y], line := ⟨3⟩, reg := some .a0 }
  edge takeY done
  blockLine takeY ⟨3⟩
  blockLine done ⟨5⟩

/-- Adds a spilled argument to a global counter and stores the sum. -/
def sum : Func := build "sum" do
  let entry ← block .ret
  let mem ← value { block := entry, op := .initMem, ty := .mem }
  let base ← value { block := entry, op := .sb, ty := .ptr, reg := some .gp }
  let n ← value { block := entry, op := .arg, ty := int64 }
  slot n { var := { name := "n", varClass := .param } }
  let addr ← value
    { block := entry, op := .movMem, ty := .ptr, args := [base], aux := .global "total",
      line := ⟨2⟩, reg := some .t0 }
  let old ← value
    { block := entry, op := .movLoad, ty := int64, args := [addr, mem], line := ⟨2⟩,
      reg := some .t1 }
  let reload ← value
    { block := entry, op := .loadReg, ty := int64, args := [n], line := ⟨2⟩, reg := some .t2 }
  let total ← value
    { block := entry, op := .alu .add, ty := int64, args := [old, reload], line := ⟨2⟩,
      reg := some .t1 }
  let _ ← value
    { block := entry, op := .movStore, ty := .mem, args := [addr, total, mem], line := ⟨2⟩ }
  blockLine entry ⟨3⟩

def all : List (String × Func) := [("exit", exit), ("max", max), ("sum", sum)]

end RiscvLowering.Demo
