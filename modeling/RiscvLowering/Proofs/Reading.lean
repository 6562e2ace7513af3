import RiscvLowering.Command.Demo
import RiscvLowering.Proofs.LockStep

/-!
# Reading — what the lowering of a function depends on

Lowering walks over the schedule. Of a scheduled value, and of a control value,
it reads all fields; of their arguments it reads whether they exist, and then
the id, the type and the register; and it reads the slots of all these. How an
argument is computed, or on what line, it does not read, unless that argument is
scheduled itself; nor does it read anything of the other values and slots.

Main results:

* `AgreesOnSchedule.stepPiece_alike` — a step of the layout does the same in
  functions that agree on what is read.
* `lower_of_agreesOnSchedule` — so the functions are lowered alike.
-/

namespace RiscvLowering

namespace Func

/-- The id is scheduled in some block. -/
def IsScheduled (f : Func) (id : ValueId) : Prop := ∃ b ∈ f.blocks, id ∈ b.values

/-- The id is scheduled in some block, or it is that of a control value. -/
def IsRead (f : Func) (id : ValueId) : Prop :=
  f.IsScheduled id ∨ ∃ b ∈ f.blocks, b.control = some id

end Func

/-- Values that are the same to what takes them as an argument. -/
structure Value.SameArgument (a a' : Value) : Prop where
  id : a.id = a'.id
  ty : a.ty = a'.ty
  reg : a.reg = a'.reg

/-- Two functions agree on the schedule, on the values that are read there, on
what is read of their arguments, and on the slots of scheduled values and of
arguments. Everything else may differ. -/
structure Func.AgreesOnSchedule (f g : Func) : Prop where
  name : f.name = g.name
  blocks : f.blocks = g.blocks
  values : ∀ id, f.IsRead id → f.value? id = g.value? id
  args : ∀ id v, f.IsRead id → f.value? id = some v →
    ∀ arg ∈ v.args, Option.Rel Value.SameArgument (f.value? arg) (g.value? arg)
  slots : ∀ id v, f.IsScheduled id → f.value? id = some v → f.slot? v.id = g.slot? v.id
  argSlots : ∀ id v, f.IsRead id → f.value? id = some v →
    ∀ arg ∈ v.args, ∀ a, f.value? arg = some a → f.slot? a.id = g.slot? a.id

namespace Func

/-- The function with the slots of another one. -/
def withSlots (g f : Func) : Func := { g with slots := f.slots }

namespace AgreesOnSchedule

variable {f g : Func} (h : f.AgreesOnSchedule g)

include h

/-- Arguments are read alike, with the slots of both functions. -/
theorem args_alike {id : ValueId} {v : Value} (hRead : f.IsRead id) (hv : f.value? id = some v) :
    ∀ arg ∈ v.args, Option.Rel (f.SameOperand g) (f.value? arg) (g.value? arg) := by
  intro arg hArg
  have hSlots := h.argSlots id v hRead hv arg hArg
  have hSame := h.args id v hRead hv arg hArg
  generalize f.value? arg = x, g.value? arg = y at hSlots hSame
  cases hSame with
  | none => exact .none
  | @some a a' hArg =>
    -- the ids are the same, so the slots are looked up under one id
    have hSlot : f.slot? a.id = g.slot? a'.id := hArg.id ▸ hSlots a rfl
    exact .some ⟨hArg.ty, hArg.reg, hSlot⟩

/-- A scheduled value is read alike. -/
theorem value_alike {id : ValueId} (hId : f.IsScheduled id) :
    Option.Rel (f.ReadAlike .same g) (f.value? id) (g.value? id) := by
  -- both functions have the same entry at the id, if any
  rw [← h.values id (.inl hId)]
  cases hv : f.value? id with
  | none => exact .none
  | some v =>
    have hArgs := h.args_alike (.inl hId) hv
    exact .some (readAlike_owner v.block (h.slots id v hId hv) hArgs)

/-- A control value that is not scheduled may have any slot, so it is read alike
only where the slots of both functions are the same. -/
theorem control_alike {b : Block} (hb : b ∈ f.blocks) (id : ValueId) (hId : b.control = some id) :
    Option.Rel
      (fun v v' => f.ReadAlike .same (g.withSlots f) v v' ∧ (v.block = b.id ↔ v'.block = b.id))
      (f.value? id) ((g.withSlots f).value? id) := by
  have hRead : f.IsRead id := .inr ⟨b, hb, hId⟩
  have hSame : (g.withSlots f).value? id = f.value? id := (h.values id hRead).symm
  rw [hSame]
  cases hv : f.value? id with
  | none => exact .none
  | some v =>
    refine .some ⟨readAlike_owner v.block rfl fun arg hArg => ?_, Iff.rfl⟩
    have hArgs := h.args id v hRead hv arg hArg
    show Option.Rel _ (f.value? arg) (g.value? arg)
    -- both functions have the slots of the first by now, so arguments of one id have one slot
    generalize f.value? arg = x, g.value? arg = y at hArgs
    cases hArgs with
    | none => exact .none
    | some hArg => exact .some ⟨hArg.ty, hArg.reg, congrArg f.slots.get? hArg.id⟩

/-- **A step of the layout does the same in both functions**: it leaves the same
piece behind, or it fails for a reason of the same class. -/
theorem stepPiece_alike (options : Options) {x : Step} (hx : x ∈ layoutSteps f.blocks) :
    (f.stepPiece options x).1.Alike .same (g.stepPiece options x).1 ∧
      Parallel Eq (f.stepPiece options x).2 (g.stepPiece options x).2 := by
  obtain ⟨b, hb, rfl | ⟨id, hId, rfl⟩ | ⟨next, rfl⟩⟩ := exists_block_of_mem_layoutSteps hx
  · exact Func.stepPiece_alike options (.start rfl)
  · exact Func.stepPiece_alike options (.value (h.value_alike ⟨b, hb, hId⟩))
  · -- a terminator reads no slots, so those of `f` do for `g`
    have hSlots : g.stepPiece options (.terminator b next) =
        (g.withSlots f).stepPiece options (.terminator b next) := rfl
    rw [hSlots]
    exact Func.stepPiece_alike options (.terminator (exitAlike_self next (h.control_alike hb)))

end AgreesOnSchedule

/-- **Lowering depends on the schedule and its operands only.** Functions that
agree on these give the same output and the same marks, or both fail for
reasons of one class after the same marks. -/
theorem lower_of_agreesOnSchedule {f g : Func} (h : f.AgreesOnSchedule g) (options : Options) :
    Parallel Eq (f.lower options).result (g.lower options).result ∧
      (f.lower options).marks = (g.lower options).marks := by
  have hRun : (f.runPiece options (layoutSteps f.blocks)).1.Alike .same
        (g.runPiece options (layoutSteps g.blocks)).1 ∧
      Parallel Eq (f.runPiece options (layoutSteps f.blocks)).2
        (g.runPiece options (layoutSteps g.blocks)).2 := by
    -- both functions have one layout
    rw [← h.blocks]
    exact runPiece_alike_of_steps options
      (List.forall₂_same.mpr fun x hx => h.stepPiece_alike options hx)
  obtain ⟨hResult, hMarks⟩ := lower_alike_of_run options hRun
  refine ⟨?_, hMarks⟩
  generalize (f.lower options).result = r, (g.lower options).result = r' at hResult
  cases hResult with
  | ok hPieces =>
    obtain ⟨p, q, hAlike, rfl, rfl⟩ := hPieces
    rw [hAlike.eq, h.name]
    exact .ok rfl
  | error hClass => exact .error hClass

/-- Adds 1 to the first value of an arena; only the sum is scheduled. -/
def increment (source : Value) (slots : SlotTable) : Func where
  name := "increment"
  values := [source,
    { id := 1, op := .aluImm .addi, ty := Demo.int64, args := [0], auxInt := 1, reg := some .a0,
      block := 0, line := ⟨2⟩ }]
  blocks := [{ id := 0, kind := .ret, values := [1] }]
  slots

/-- An argument of the function. -/
def givenSource : Value := { id := 0, op := .arg, ty := Demo.int64, reg := some .a1, block := 0 }

/-- What no lowering takes, of a block that does not exist and with an argument that leads nowhere,
but in the same register. -/
def strangeSource : Value :=
  { id := 0, op := .generic .load, ty := Demo.int64, args := [7], auxInt := 9, aux := .global "x",
    reg := some .a1, block := 5, line := ⟨9⟩ }

def strangeSlots : SlotTable :=
  SlotTable.empty.insert 9 { var := { name := "t", varClass := .auto } }

theorem lower_of_agreesOnSchedule_increment :
    let f := increment givenSource .empty
    let g := increment strangeSource strangeSlots
    f ≠ g ∧ f.AgreesOnSchedule g ∧ (∃ out, (f.lower {}).result = .ok out) ∧
      Parallel Eq (f.lower {}).result (g.lower {}).result ∧
      (f.lower {}).marks = (g.lower {}).marks := by
  intro f g
  -- the only block has no control value, so that the sum is all that is read
  have hOnly : ∀ id, f.IsRead id → id = 1 := by
    rintro id (⟨b, hb, hId⟩ | ⟨b, hb, hId⟩)
    · obtain rfl := List.mem_singleton.mp hb
      exact List.mem_singleton.mp hId
    · obtain rfl := List.mem_singleton.mp hb
      simp at hId
  have hAgree : f.AgreesOnSchedule g := by
    refine ⟨rfl, rfl, ?_, ?_, ?_, ?_⟩
    · intro id hRead
      rw [hOnly id hRead]
      rfl
    · intro id v hRead hv arg hArg
      rw [hOnly id hRead] at hv
      obtain rfl := Option.some.inj hv
      obtain rfl := List.mem_singleton.mp hArg
      exact .some ⟨rfl, rfl, rfl⟩
    · intro id v hId hv
      rw [hOnly id (.inl hId)] at hv
      obtain rfl := Option.some.inj hv
      rfl
    · intro id v hRead hv arg hArg a ha
      rw [hOnly id hRead] at hv
      obtain rfl := Option.some.inj hv
      obtain rfl := List.mem_singleton.mp hArg
      obtain rfl := Option.some.inj ha
      rfl
  exact ⟨by decide, hAgree, ⟨_, rfl⟩, lower_of_agreesOnSchedule hAgree {}⟩

end Func

end RiscvLowering
