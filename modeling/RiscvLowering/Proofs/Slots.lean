import RiscvLowering.Proofs.Addressing
import RiscvLowering.Proofs.Integrity

/-!
# Slots — the ways to the place of a spilled value

A spill stores to the slot that is recorded for it, and a reload of it looks the
slot up by its argument. A place can also be named, by a reference to the variable
and a constant. The three ways meet: they compute one symbol and one offset.

Main results:

* `Session.spill_reload_operand` — a spill and its reload take one operand.
* `Session.spill_reload_fault` — without a slot, or for a slot that overflows,
  they fail alike.
* `Value.Names.address` — an operand that names the place of a slot is that of
  the slot.
* `memory_operands_exact` — all that is said of operands of memory.
-/

namespace RiscvLowering

/-! ## Spills and their reloads -/

namespace Func

/-- The value `reload` reloads what the value `spill` of the function spills. -/
structure Reloads (f : Func) (spill reload : Value) : Prop where
  mem : spill ∈ f.values
  isSpill : spill.op = .storeReg
  isReload : reload.op = .loadReg
  arg : reload.args[0]? = some spill.id

/-- Nothing is in the way of the value before its slot is looked up: its type can
be accessed, and what a spill stores is in a register. -/
def ReachesSlot (f : Func) (v : Value) : Prop :=
  v.ty.IsLoadable ∧ (v.op = .storeReg → f.ArgInRegister v 0)

/-- A reload reaches the value that it reloads. -/
theorem Sound.hasArg_reload {f : Func} (hSound : f.Sound) {spill reload : Value}
    (h : f.Reloads spill reload) : f.HasArg reload 0 spill := by
  obtain ⟨i, hi⟩ := List.mem_iff_getElem?.mp h.mem
  exact ⟨spill.id, h.arg, by rw [value?, hSound.ids i spill hi, hi]⟩

theorem HasArg.unique {f : Func} {v a b : Value} {i : Nat} (ha : f.HasArg v i a)
    (hb : f.HasArg v i b) : a = b :=
  Except.ok.inj ((arg_eq_ok_iff_hasArg.mpr ha).symm.trans (arg_eq_ok_iff_hasArg.mpr hb))

theorem HasArgIn.unique {f : Func} {v : Value} {i : Nat} {r q : Reg} (hr : f.HasArgIn v i r)
    (hq : f.HasArgIn v i q) : r = q := by
  obtain ⟨a, ha, hReg⟩ := hr
  obtain ⟨b, hb, hReg'⟩ := hq
  obtain rfl := ha.unique hb
  exact Option.some.inj (hReg.symm.trans hReg')

end Func

namespace Session

variable {s t : Session} {spill reload : Value}

/-- The instruction of a spill that is none of flags. -/
theorem emitted_spill (hOp : spill.op = .storeReg) (hFlags : spill.ty ≠ .flags)
    (hEnd : (s.lowerValue spill).2 = .ok ()) :
    ∃ width rs addr, spill.ty.width = .ok width ∧ s.func.HasArgIn spill 0 rs ∧
      s.func.slotAddress spill = .ok addr ∧ s.emitted spill = [.store width rs addr] := by
  have hEmits := emits_of_end hEnd
  generalize s.emitted spill = insts at hEmits ⊢
  -- a spill that says nothing is one of flags, and nothing else is a spill
  cases hEmits with
  | spill _ hWidth hArg hAddr => exact ⟨_, _, _, hWidth, hArg, hAddr, rfl⟩
  | silent hSilent => exact absurd (by simpa [Value.IsSilent, hOp] using hSilent) hFlags
  | _ => simp_all

/-- The instruction of a reload that is none of flags. -/
theorem emitted_reload (hOp : reload.op = .loadReg) (hFlags : reload.ty ≠ .flags)
    (hEnd : (t.lowerValue reload).2 = .ok ()) :
    ∃ width a addr rd, reload.ty.width = .ok width ∧ t.func.HasArg reload 0 a ∧
      t.func.slotAddress a = .ok addr ∧ reload.reg = some rd ∧
      t.emitted reload = [.load width rd addr] := by
  have hEmits := emits_of_end hEnd
  generalize t.emitted reload = insts at hEmits ⊢
  -- a reload that says nothing is one of flags, and nothing else is a reload
  cases hEmits with
  | reload _ hWidth hArg hAddr hReg => exact ⟨_, _, _, _, hWidth, hArg, hAddr, hReg, rfl⟩
  | silent hSilent => exact absurd (by simpa [Value.IsSilent, hOp] using hSilent) hFlags
  | _ => simp_all

/-- **A spill and its reload take one operand.** -/
theorem spill_reload_operand (hFunc : t.func = s.func) (hSound : s.func.Sound)
    (h : s.func.Reloads spill reload) (hSpillTy : spill.ty ≠ .flags)
    (hReloadTy : reload.ty ≠ .flags) (hSpill : (s.lowerValue spill).2 = .ok ())
    (hReload : (t.lowerValue reload).2 = .ok ()) :
    ∃ addr width width' rs rd, spill.ty.width = .ok width ∧ reload.ty.width = .ok width' ∧
      s.func.HasArgIn spill 0 rs ∧ reload.reg = some rd ∧
      s.emitted spill = [.store width rs addr] ∧ t.emitted reload = [.load width' rd addr] := by
  obtain ⟨width, rs, addr, hWidth, hArgIn, hAddr, hStore⟩ :=
    emitted_spill h.isSpill hSpillTy hSpill
  obtain ⟨width', a, addr', rd, hWidth', hArg, hAddr', hReg, hLoad⟩ :=
    emitted_reload h.isReload hReloadTy hReload
  rw [hFunc] at hArg hAddr'
  -- both slots are that of the spill
  obtain rfl := hArg.unique (hSound.hasArg_reload h)
  obtain rfl := Except.ok.inj (hAddr.symm.trans hAddr')
  exact ⟨addr, width, width', rs, rd, hWidth, hWidth', hArgIn, hReg, hStore, hLoad⟩

/-- A spill that reaches its slot ends as the operand of the slot does. -/
theorem end_spill_of_error {e : LoweringError} (hOp : spill.op = .storeReg)
    (hReaches : s.func.ReachesSlot spill) (h : s.func.slotAddress spill = .error e) :
    (s.lowerValue spill).2 = .error e := by
  obtain ⟨hLoadable, hArg⟩ := hReaches
  obtain ⟨rs, hArg⟩ := hArg hOp
  have hWidth := Ty.exists_width_iff.mpr hLoadable
  have hFlags := Ty.isFlags_eq_false_of_width hWidth
  obtain ⟨width, hWidth⟩ := hWidth
  -- all that is asked for before the slot is there
  rw [end_lowerValue_eq_error_iff, Func.lowerValue, hOp]
  simp only [Func.lowerSpill, hFlags, hWidth, Func.argRegister_eq_ok_iff_hasArgIn.mpr hArg, h,
    ok_bind, Bool.false_eq_true, if_false]
  rfl

/-- A reload that reaches the slot of its argument ends as the operand of the slot does. -/
theorem end_reload_of_error {e : LoweringError} {a : Value} (hOp : reload.op = .loadReg)
    (hReaches : t.func.ReachesSlot reload) (hArg : t.func.HasArg reload 0 a)
    (h : t.func.slotAddress a = .error e) : (t.lowerValue reload).2 = .error e := by
  have hWidth := Ty.exists_width_iff.mpr hReaches.1
  have hFlags := Ty.isFlags_eq_false_of_width hWidth
  obtain ⟨width, hWidth⟩ := hWidth
  rw [end_lowerValue_eq_error_iff, Func.lowerValue, hOp]
  simp only [Func.lowerReload, hFlags, hWidth, Func.arg_eq_ok_iff_hasArg.mpr hArg, h,
    ok_bind, Bool.false_eq_true, if_false]
  rfl

/-- **Without a slot whose offset exists, a spill and its reload fail alike.** -/
theorem spill_reload_fault (hFunc : t.func = s.func) (hSound : s.func.Sound)
    (h : s.func.Reloads spill reload) (hSpill : s.func.ReachesSlot spill)
    (hReload : s.func.ReachesSlot reload) {e : LoweringError}
    (hSlot : s.func.slotAddress spill = .error e) :
    (s.lowerValue spill).2 = .error e ∧ (t.lowerValue reload).2 = .error e := by
  -- the reload looks at the slot of the spill, and blames the spill
  refine ⟨end_spill_of_error h.isSpill hSpill hSlot, ?_⟩
  rw [← hFunc] at hReload hSound hSlot h
  exact end_reload_of_error h.isReload hReload (hSound.hasArg_reload h) hSlot

end Session

/-! ## Addresses of slots -/

/-- The reference by which an address names a variable of its class. -/
def FrameVar.reference (var : FrameVar) : Aux :=
  match var.varClass with
  | .param | .paramOut => .arg var
  | .auto => .auto var

/-- The value names the place of the slot: its variable, by the kind of reference
that belongs to its class, and the offset in the variable. -/
def Value.Names (v : Value) (slot : Slot) : Prop :=
  v.aux = slot.var.reference ∧ v.auxInt = slot.offset

/-- An operand that names the place of a slot is the operand of the slot, based on
a register. -/
theorem Value.Names.address {f : Func} {v a : Value} {slot : Slot} {base : Reg}
    {addr addr' : Address} (h : v.Names slot) (hSlot : f.slot? a.id = some slot)
    (hNamed : v.address base = .ok addr) (hTaken : f.slotAddress a = .ok addr') :
    addr = { addr' with base := some base } := by
  obtain ⟨hAux, hConst⟩ := h
  rw [Value.address, hAux, FrameVar.reference] at hNamed
  rw [Func.slotAddress, hSlot] at hTaken
  -- an argument and a result add the place of the variable on both sides
  cases hClass : slot.var.varClass with
  | param | paramOut =>
    simp only [hClass, VarClass.isParam, if_true, bind_eq_ok_iff, pure_eq_ok_iff]
      at hNamed hTaken
    obtain ⟨n, hn, rfl⟩ := hNamed
    obtain ⟨m, hm, rfl⟩ := hTaken
    have hSame : n = m := by
      rw [← Int64.toInt_inj, toInt_addOffsets hn, toInt_addOffsets hm, hConst]
    rw [hSame]
  | auto =>
    simp only [hClass, VarClass.isParam, if_false, Bool.false_eq_true, Except.ok.injEq]
      at hNamed hTaken
    rw [← hNamed, ← hTaken, hConst]

namespace Session

variable {s t : Session} {v u : Value}

/-- What the operand of a value that takes a slot is. -/
theorem slotAddress_of_mem {slot : Slot} {inst : Inst} {addr : Address}
    (hSlot : t.func.UsesSlot u slot) (hInst : inst ∈ t.emitted u)
    (hOperand : inst.operand? = some addr) :
    ∃ a, t.func.slot? a.id = some slot ∧ t.func.slotAddress a = .ok addr := by
  have hEmits := emits_of_mem hInst
  generalize t.emitted u = insts at hInst hEmits
  -- only a spill and a reload use a slot
  cases hEmits with
  | spill hOp _ _ hAddr =>
    obtain rfl := List.mem_singleton.mp hInst
    obtain rfl := Option.some.inj hOperand
    simp only [Func.UsesSlot, hOp] at hSlot
    exact ⟨u, hSlot, hAddr⟩
  | reload hOp _ hArg hAddr _ =>
    obtain rfl := List.mem_singleton.mp hInst
    obtain rfl := Option.some.inj hOperand
    simp only [Func.UsesSlot, hOp] at hSlot
    obtain ⟨b, hb, hSlot⟩ := hSlot
    obtain rfl := hArg.unique hb
    exact ⟨_, hSlot, hAddr⟩
  | silent => simp at hInst
  | copy hOp | alu hOp | aluImm hOp | const hOp | zeroTest hOp | exit hOp | address hOp
  | load hOp | store hOp =>
    simp only [Func.UsesSlot] at hSlot
    split at hSlot <;> simp_all

/-- What the operand of a value that names its operand is. -/
theorem address_of_mem {inst : Inst} {addr : Address}
    (hOp : v.op = .movMem ∨ v.op = .movLoad ∨ v.op = .movStore) (hInst : inst ∈ s.emitted v)
    (hOperand : inst.operand? = some addr) : ∃ base, v.address base = .ok addr := by
  have hEmits := emits_of_mem hInst
  generalize s.emitted v = insts at hInst hEmits
  -- the rules of the other operations contradict `hOp`
  cases hEmits with
  | address _ _ hAddr _ | load _ _ _ hAddr _ | store _ _ _ _ hAddr _ =>
    obtain rfl := List.mem_singleton.mp hInst
    obtain rfl := Option.some.inj hOperand
    exact ⟨_, hAddr⟩
  | silent => simp at hInst
  | copy h => rcases h with h | h <;> simp [h] at hOp
  | alu h | aluImm h | const h | zeroTest h | exit h | reload h | spill h => simp [h] at hOp

end Session

/-! ## Operands of memory -/

/-- **Operands of memory are computed exactly, and the ways to a slot agree.**
What is emitted has the exact offset, an overflow says that there is none, and an
access is as wide as what it accesses. A spill and its reload, in whatever states
of the lowering they are met, take one operand, and fail alike where the slot is
missing or its offset is none. A value that names the place of a slot takes the
operand of the slot, off a base register. -/
theorem memory_operands_exact (s t : Session) :
    (∀ v inst addr, inst ∈ s.emitted v → inst.operand? = some addr →
      s.func.HasOffset v addr.offset.toInt) ∧
    (∀ v w, (s.lowerValue v).2 = .error (.offsetOverflow w) →
      ∃ n, s.func.HasOffset v n ∧ ¬ IsOffset n) ∧
    (∀ v inst width, inst ∈ s.emitted v → inst.access? = some width →
      ∃ ty, s.func.Accesses v ty ∧ width.bytes = ty.size.toNat) ∧
    (t.func = s.func → s.func.check = .ok () →
      ∀ spill reload, s.func.Reloads spill reload →
        (spill.ty ≠ .flags → reload.ty ≠ .flags → (s.lowerValue spill).2 = .ok () →
          (t.lowerValue reload).2 = .ok () →
          ∃ addr width width' rs rd, s.emitted spill = [.store width rs addr] ∧
            t.emitted reload = [.load width' rd addr]) ∧
        (s.func.ReachesSlot spill → s.func.ReachesSlot reload →
          (s.func.slot? spill.id = none →
            (s.lowerValue spill).2 = .error (.missingSlot spill) ∧
            (t.lowerValue reload).2 = .error (.missingSlot spill)) ∧
          ∀ slot, s.func.slot? spill.id = some slot → ¬ IsOffset slot.exactOffset →
            (s.lowerValue spill).2 = .error (.offsetOverflow spill) ∧
            (t.lowerValue reload).2 = .error (.offsetOverflow spill))) ∧
    (t.func = s.func → ∀ v u slot inst inst' addr addr',
      v.op = .movMem ∨ v.op = .movLoad ∨ v.op = .movStore → v.Names slot →
      s.func.UsesSlot u slot → inst ∈ s.emitted v → inst.operand? = some addr →
      inst' ∈ t.emitted u → inst'.operand? = some addr' →
      addr.symbol = addr'.symbol ∧ addr.offset = addr'.offset) := by
  refine ⟨fun v inst addr => Session.offset_exact, fun v w => Session.overflow_exact,
    fun v inst width => Session.access_width, ?_, ?_⟩
  · intro hFunc hCheck spill reload hReloads
    have hSound := Func.check_eq_ok_iff.mp hCheck
    refine ⟨?_, fun hSpill hReload => ⟨fun hSlot => ?_, fun slot hSlot hOut => ?_⟩⟩
    · -- one operand for both, where neither is of flags
      intro hSpillTy hReloadTy hSpill hReload
      obtain ⟨addr, width, width', rs, rd, -, -, -, -, hStore, hLoad⟩ :=
        Session.spill_reload_operand hFunc hSound hReloads hSpillTy hReloadTy hSpill hReload
      exact ⟨addr, width, width', rs, rd, hStore, hLoad⟩
    · exact Session.spill_reload_fault hFunc hSound hReloads hSpill hReload
        (Func.slotAddress_eq_missing hSlot)
    · exact Session.spill_reload_fault hFunc hSound hReloads hSpill hReload
        (Func.slotAddress_eq_overflow hSlot hOut)
  · -- an address that names the place of a slot, against the operand of the slot
    intro hFunc v u slot inst inst' addr addr' hOp hNames hUses hInst hOperand hInst' hOperand'
    obtain ⟨base, hAddr⟩ := Session.address_of_mem hOp hInst hOperand
    rw [← hFunc] at hUses
    obtain ⟨a, hSlot, hAddr'⟩ := Session.slotAddress_of_mem hUses hInst' hOperand'
    rw [hNames.address hSlot hAddr hAddr']
    exact ⟨rfl, rfl⟩

namespace Demo

/-- Spills an argument of a byte. -/
def spilledByte : Value :=
  { id := 1, op := .storeReg, ty := .int 1 false, args := [0], block := 0 }

/-- Reloads it into another register. -/
def reloadedByte : Value :=
  { id := 2, op := .loadReg, ty := .int 1 false, args := [1], reg := some .a1, block := 0 }

/-- Keeps an argument in the frame for a while. -/
def reload : Func where
  name := "reload"
  values := [{ id := 0, op := .arg, ty := .int 1 false, reg := some .a0, block := 0 },
    spilledByte, reloadedByte]
  blocks := [{ id := 0, kind := .ret, values := [0, 1, 2] }]
  slots := SlotTable.empty.insert 1 { var := { name := "tmp", varClass := .auto }, offset := -8 }

end Demo

theorem memory_operands_exact_reload :
    ∃ spill reload addr width width' rs rd, Demo.reload.Reloads spill reload ∧
      (Session.fresh Demo.reload {}).emitted spill = [.store width rs addr] ∧
      ((Session.fresh Demo.reload {}).lowerValue spill).1.emitted reload =
        [.load width' rd addr] := by
  have hReloads : Demo.reload.Reloads Demo.spilledByte Demo.reloadedByte :=
    ⟨by decide, rfl, rfl, rfl⟩
  have hOperands := (memory_operands_exact (.fresh Demo.reload {})
    ((Session.fresh Demo.reload {}).lowerValue Demo.spilledByte).1).2.2.2.1 rfl rfl _ _ hReloads
  obtain ⟨addr, width, width', rs, rd, hStore, hLoad⟩ :=
    hOperands.1 (by decide) (by decide) rfl rfl
  exact ⟨_, _, addr, width, width', rs, rd, hReloads, hStore, hLoad⟩

end RiscvLowering
