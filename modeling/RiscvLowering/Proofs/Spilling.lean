import RiscvLowering.Proofs.Rv64
import RiscvLowering.Proofs.Slots

/-!
# Spilling — what is left of a value that was spilled and reloaded

A spill stores as many bytes of a register as the type of the value has, and a
reload reads them back. The width of the access is all that is chosen by the type:
each load extends what it reads by its highest bit. That is how a register holds a
signed integer; of an unsigned one it is only while the highest bit is not set. So
a reload restores what was spilled, but for unsigned integers of less than eight
bytes from the middle of their range on, which come back as negative numbers.

Main results:

* `toInt_extended` — the number that an access of a width keeps of a word.
* `run_spill_reload` — what the code of a spill and of its reload leaves.
* `spill_reload_value` — which values come back, and what becomes of the others.
-/

namespace RiscvLowering

/-! ## Words of a type -/

/-- The word is how a register holds a value of the type. -/
def Ty.Holds (ty : Ty) (x : Word) : Prop :=
  match ty with
  | .int size true => -2 ^ (8 * size.toNat - 1) ≤ x.toInt ∧ x.toInt < 2 ^ (8 * size.toNat - 1)
  | .int size false => x.toNat < 2 ^ (8 * size.toNat)
  | .bool => x = 0 ∨ x = 1
  | .ptr => True
  | .float _ | .mem | .flags | .aggregate _ | .void => False

/-- The word is an unsigned integer of less than eight bytes, from the middle of
the range of the type on. -/
def Ty.IsUpperHalf (ty : Ty) (x : Word) : Prop :=
  match ty with
  | .int size false => size.toNat < 8 ∧ 2 ^ (8 * size.toNat - 1) ≤ x.toNat
  | _ => False

instance : (ty : Ty) → (x : Word) → Decidable (ty.Holds x)
  | .int size true, x => inferInstanceAs (Decidable
    (-2 ^ (8 * size.toNat - 1) ≤ x.toInt ∧ x.toInt < 2 ^ (8 * size.toNat - 1)))
  | .int size false, x => inferInstanceAs (Decidable (x.toNat < 2 ^ (8 * size.toNat)))
  | .bool, x => inferInstanceAs (Decidable (x = 0 ∨ x = 1))
  | .ptr, _ => instDecidableTrue
  | .float _, _ | .mem, _ | .flags, _ | .aggregate _, _ | .void, _ => instDecidableFalse

instance : (ty : Ty) → (x : Word) → Decidable (ty.IsUpperHalf x)
  | .int size false, x =>
    inferInstanceAs (Decidable (size.toNat < 8 ∧ 2 ^ (8 * size.toNat - 1) ≤ x.toNat))
  | .int _ true, _ | .bool, _ | .ptr, _ | .float _, _ | .mem, _ | .flags, _ | .aggregate _, _
  | .void, _ => instDecidableFalse

/-- The number that an access of the width keeps of a word: the one of its bits,
with sign. -/
theorem toInt_extended (w : Width) (x : Word) :
    ((x.setWidth (8 * w.bytes)).signExtend 64).toInt =
      (x.toNat : Int).bmod (2 ^ (8 * w.bytes)) := by
  have hBytes : 8 * w.bytes ≤ 64 := by cases w <;> decide
  rw [BitVec.toInt_signExtend_of_le hBytes, BitVec.toInt_setWidth]

/-- A word whose number, with sign, has the bits of an access is kept. -/
theorem bmod_of_signed {w : Width} {x : Word} (hLow : -2 ^ (8 * w.bytes - 1) ≤ x.toInt)
    (hHigh : x.toInt < 2 ^ (8 * w.bytes - 1)) :
    (x.toNat : Int).bmod (2 ^ (8 * w.bytes)) = x.toInt := by
  have hInt := BitVec.toInt_eq_toNat_cond x
  have hBound := x.isLt
  rw [Int.bmod_def]
  cases w <;> simp only [Width.bytes] at hLow hHigh ⊢ <;> split at hInt <;> omega

/-- Of the words whose number, without sign, has the bits of an access, those of the
upper half lose the power of two behind their range. -/
theorem bmod_of_unsigned {w : Width} {x : Word} (hLow : 2 ^ (8 * w.bytes - 1) ≤ x.toNat)
    (hHigh : x.toNat < 2 ^ (8 * w.bytes)) :
    (x.toNat : Int).bmod (2 ^ (8 * w.bytes)) = x.toNat - 2 ^ (8 * w.bytes) := by
  rw [Int.bmod_def]
  cases w <;> simp only [Width.bytes] at hLow hHigh ⊢ <;> omega

/-- A word below the middle of the numbers of an access is its own number with sign. -/
theorem signed_of_small {w : Width} {x : Word} (h : x.toNat < 2 ^ (8 * w.bytes - 1)) :
    -2 ^ (8 * w.bytes - 1) ≤ x.toInt ∧ x.toInt < 2 ^ (8 * w.bytes - 1) := by
  have hInt := BitVec.toInt_eq_toNat_cond x
  cases w <;> simp only [Width.bytes] at h ⊢ <;> split at hInt <;> omega

namespace Ty.Holds

variable {ty : Ty} {w : Width} {x : Word}

/-- A value of the type has the bits of an access, with sign, if it is none of the
upper half. -/
theorem signed (hWidth : ty.width = .ok w) (h : ty.Holds x) (hLower : ¬ ty.IsUpperHalf x) :
    -2 ^ (8 * w.bytes - 1) ≤ x.toInt ∧ x.toInt < 2 ^ (8 * w.bytes - 1) := by
  have hBytes := bytes_of_width hWidth
  -- a double word is all of the register
  have hDouble : w = .double →
      -2 ^ (8 * w.bytes - 1) ≤ x.toInt ∧ x.toInt < 2 ^ (8 * w.bytes - 1) := by
    rintro rfl
    exact ⟨x.le_toInt, x.toInt_lt⟩
  cases ty with
  | int size sign =>
    change w.bytes = size.toNat at hBytes
    cases sign with
    | true =>
      rw [Holds, ← hBytes] at h
      exact h
    | false =>
      rw [Holds, ← hBytes] at h
      rw [IsUpperHalf, ← hBytes] at hLower
      by_cases hNarrow : w.bytes < 8
      · exact signed_of_small (not_le.mp fun hUpper => hLower ⟨hNarrow, hUpper⟩)
      · refine hDouble ?_
        cases w <;> simp [Width.bytes] at hNarrow ⊢
  | ptr =>
    refine hDouble ?_
    cases w <;> simp [Width.bytes, size] at hBytes ⊢
  | bool =>
    refine signed_of_small ?_
    rw [show w.bytes = 1 from hBytes]
    rcases h with rfl | rfl <;> decide
  | float _ | mem | flags | aggregate _ | void => exact h.elim

/-- **An access keeps the values of its type**, but for the upper half of the unsigned ones. -/
theorem extended (hWidth : ty.width = .ok w) (h : ty.Holds x) (hLower : ¬ ty.IsUpperHalf x) :
    (x.setWidth (8 * w.bytes)).signExtend 64 = x := by
  obtain ⟨hLow, hHigh⟩ := h.signed hWidth hLower
  rw [← BitVec.toInt_inj, toInt_extended, bmod_of_signed hLow hHigh]

/-- A value of the upper half comes back as the negative number of its bits. -/
theorem extended_upper (hWidth : ty.width = .ok w) (h : ty.Holds x) (hUpper : ty.IsUpperHalf x) :
    ((x.setWidth (8 * w.bytes)).signExtend 64).toInt = x.toNat - 2 ^ (8 * ty.size.toNat) := by
  have hBytes := bytes_of_width hWidth
  -- only an unsigned type has an upper half
  cases ty with
  | int size sign =>
    cases sign with
    | true => exact hUpper.elim
    | false =>
      change w.bytes = size.toNat at hBytes
      rw [Holds, ← hBytes] at h
      rw [IsUpperHalf, ← hBytes] at hUpper
      rw [toInt_extended, bmod_of_unsigned hUpper.2 h, hBytes]
      rfl
  | _ => exact hUpper.elim

/-- So a value of the upper half does not come back. -/
theorem extended_ne (hWidth : ty.width = .ok w) (h : ty.Holds x) (hUpper : ty.IsUpperHalf x) :
    (x.setWidth (8 * w.bytes)).signExtend 64 ≠ x := by
  intro hSame
  -- what comes back is negative, so the number of the word would have to be, too
  have hBack := extended_upper hWidth h hUpper
  have hInt := BitVec.toInt_eq_toNat_cond x
  have hBytes := bytes_of_width hWidth
  rw [hSame, ← hBytes] at hBack
  have hPos : (0 : Int) < 2 ^ (8 * w.bytes) := Int.pow_pos (by decide)
  -- the word is no negative number, as it has less than eight bytes
  have hSmall : 2 * x.toNat < 2 ^ 64 := by
    cases ty with
    | int size sign =>
      cases sign with
      | true => exact hUpper.elim
      | false =>
        change w.bytes = size.toNat at hBytes
        rw [Holds, ← hBytes] at h
        rw [IsUpperHalf, ← hBytes] at hUpper
        cases w <;> simp only [Width.bytes] at h hUpper <;> omega
    | _ => exact hUpper.elim
  rw [if_pos hSmall] at hInt
  omega

end Ty.Holds

/-! ## Spills and reloads -/

variable {s t : Session} {spill reload : Value}

/-- **A spill and its reload leave the extension of the bytes that the type has**,
in a register that is not register zero. -/
theorem run_spill_reload (hFunc : t.func = s.func) (hSound : s.func.Sound)
    (hReloads : s.func.Reloads spill reload) (hTy : reload.ty = spill.ty)
    (hFlags : spill.ty ≠ .flags) (hSpill : (s.lowerValue spill).2 = .ok ())
    (hReload : (t.lowerValue reload).2 = .ok ()) {rs rd : Reg}
    (hArg : s.func.HasArgIn spill 0 rs) (hReg : reload.reg = some rd) (hZero : rd ≠ .zero)
    (p : Platform) (σ : State) :
    ∃ w, spill.ty.width = .ok w ∧
      (p.run (s.emitted spill ++ t.emitted reload) σ).regs.get rd =
        ((σ.regs.get rs).setWidth (8 * w.bytes)).signExtend 64 := by
  obtain ⟨addr, w, w', rs', rd', hWidth, hWidth', hArg', hReg', hStore, hLoad⟩ :=
    Session.spill_reload_operand hFunc hSound hReloads hFlags (hTy ▸ hFlags) hSpill hReload
  obtain rfl := hArg.unique hArg'
  obtain rfl := Option.some.inj (hReg.symm.trans hReg')
  rw [hTy, hWidth] at hWidth'
  obtain rfl := Except.ok.inj hWidth'
  refine ⟨w, hWidth, ?_⟩
  -- the store changes no register, so the load goes to the same address
  rw [hStore, hLoad]
  exact (Registers.get_set _ hZero).trans (Memory.load_store _ _ _ _)

/-- **Which values a reload restores, and what becomes of the others.** In a
function that is accepted, take a spill and a reload of it of one type, in whatever
states of the lowering they are met, and a register that holds a value of the type.
After the code of both, the register of the reload holds this value, unless it is
of the upper half of an unsigned type of less than eight bytes: then it holds the
negative number of the same bits. -/
theorem spill_reload_value {f : Func} (hCheck : f.check = .ok ()) {spill reload : Value}
    (hReloads : f.Reloads spill reload) (hTy : reload.ty = spill.ty) {s t : Session}
    (hs : s.func = f) (ht : t.func = f) (hSpill : (s.lowerValue spill).2 = .ok ())
    (hReload : (t.lowerValue reload).2 = .ok ()) {rs rd : Reg} (hArg : f.HasArgIn spill 0 rs)
    (hReg : reload.reg = some rd) (hZero : rd ≠ .zero) (p : Platform) (σ : State)
    (hHolds : spill.ty.Holds (σ.regs.get rs)) :
    ((p.run (s.emitted spill ++ t.emitted reload) σ).regs.get rd = σ.regs.get rs ↔
      ¬ spill.ty.IsUpperHalf (σ.regs.get rs)) ∧
    (spill.ty.IsUpperHalf (σ.regs.get rs) →
      ((p.run (s.emitted spill ++ t.emitted reload) σ).regs.get rd).toInt =
        (σ.regs.get rs).toNat - 2 ^ (8 * spill.ty.size.toNat)) := by
  subst hs
  have hFlags : spill.ty ≠ .flags := fun hFlags => by simp [hFlags, Ty.Holds] at hHolds
  obtain ⟨w, hWidth, hRun⟩ := run_spill_reload ht (Func.check_eq_ok_iff.mp hCheck) hReloads hTy
    hFlags hSpill hReload hArg hReg hZero p σ
  -- what is left in the register is the extension, and `extended` and `extended_ne` speak of that
  rw [hRun]
  exact ⟨⟨fun hSame hUpper => hHolds.extended_ne hWidth hUpper hSame, hHolds.extended hWidth⟩,
    hHolds.extended_upper hWidth⟩

theorem spill_reload_value_hundred :
    let s := Session.fresh Demo.reload {}
    let σ := (default : State).setReg .a0 100
    Demo.reload.check = .ok () ∧ Demo.reload.Reloads Demo.spilledByte Demo.reloadedByte ∧
    Demo.spilledByte.ty.Holds (σ.regs.get .a0) ∧
    ((default : Platform).run (s.emitted Demo.spilledByte ++ s.emitted Demo.reloadedByte)
      σ).regs.get .a1 = 100 := by
  have hReloads : Demo.reload.Reloads Demo.spilledByte Demo.reloadedByte :=
    ⟨by decide, rfl, rfl, rfl⟩
  have hArg : Demo.reload.HasArgIn Demo.spilledByte 0 .a0 := ⟨_, ⟨0, rfl, rfl⟩, rfl⟩
  have hHolds : Demo.spilledByte.ty.Holds
      (((default : State).setReg .a0 100).regs.get .a0) := by decide
  refine ⟨rfl, hReloads, hHolds, ?_⟩
  exact (spill_reload_value rfl hReloads rfl rfl rfl rfl rfl hArg rfl (by decide) default _
    hHolds).1.mpr (by decide)

/-- A byte from the middle of its range on is not restored. -/
theorem spill_reload_changes_byte :
    let s := Session.fresh Demo.reload {}
    let σ := (default : State).setReg .a0 200
    Demo.reload.check = .ok () ∧ Demo.reload.Reloads Demo.spilledByte Demo.reloadedByte ∧
    Demo.reloadedByte.ty = Demo.spilledByte.ty ∧
    (s.lowerValue Demo.spilledByte).2 = .ok () ∧ (s.lowerValue Demo.reloadedByte).2 = .ok () ∧
    Demo.reload.HasArgIn Demo.spilledByte 0 .a0 ∧ Demo.reloadedByte.reg = some .a1 ∧
    Reg.a1 ≠ .zero ∧ Demo.spilledByte.ty.Holds (σ.regs.get .a0) ∧
    ((default : Platform).run (s.emitted Demo.spilledByte ++ s.emitted Demo.reloadedByte)
      σ).regs.get .a1 ≠ σ.regs.get .a0 :=
  ⟨rfl, ⟨by decide, rfl, rfl, rfl⟩, rfl, rfl, rfl, ⟨_, ⟨0, rfl, rfl⟩, rfl⟩, rfl, by decide,
    by decide, by decide⟩

end RiscvLowering
