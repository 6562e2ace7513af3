import RiscvLowering.Command.Demo
import RiscvLowering.Proofs.Commands
import RiscvLowering.Proofs.Errors
import RiscvLowering.Proofs.FirstError
import RiscvLowering.Proofs.Integrity

/-!
# References — ids that lead nowhere, and who meets them

Lowering ends for a missing value where it meets an id of no value. Which ids it
can meet is read off what it looks up: the arguments of the value at hand, and at
the end of a block the control value and its arguments. The check of a function
looks at all of these, so lowering a function that was accepted never ends so.

The check does not look at every id. The block that a value names as its owner
is compared with the block that schedules the value; where no block does, it is
not looked at, and may be an id of no block.

Main results:

* `accepted_never_misses` — lowering never ends for a missing value in an accepted
  function.
* `accepted_ids_resolve` — in an accepted function all ids lead somewhere, but
  for the owners of values that no block schedules.
-/

namespace RiscvLowering

/-! ## Sound functions -/

namespace Func.Sound

variable {f : Func} (hSound : f.Sound)

include hSound

/-- The arguments of a value of a sound function lead to values. -/
theorem not_lostArg {v : Value} (hv : v ∈ f.values) (id : ValueId) : ¬ f.LostArg v id :=
  fun ⟨hArg, hNo⟩ => hNo (hSound.args v hv id hArg)

/-- The control value of a block of a sound function leads to a value, and so do the arguments of
that. -/
theorem not_lostControl {b : Block} (hb : b ∈ f.blocks) (id : ValueId) : ¬ f.LostControl b id := by
  intro hLost
  cases hLost with
  | value hControl hNo => exact hNo (hSound.controls b hb id hControl)
  | arg hControl hValue hArg => exact hSound.not_lostArg (List.mem_of_getElem? hValue) id hArg

/-- In a session of a sound function, no value of the arena ends for a missing
value, whether it is scheduled or not. -/
theorem lowerValue_ne_missing {s : Session} (hs : s.func = f) {v : Value} (hv : v ∈ f.values)
    (id : ValueId) : (s.lowerValue v).2 ≠ .error (.missingValue id) := by
  rw [(s.lowerValue_adds v).2, hs, Ne, Session.end_ofDecision_eq_error_iff]
  exact fun hError => hSound.not_lostArg hv id (lostArg_of_missing hError)

/-- Lowering a terminator of a sound function never misses a value. -/
theorem lowerTerminator_ne_missing {s : Session} (hs : s.func = f) {b : Block} (hb : b ∈ f.blocks)
    (next : Option BlockId) (id : ValueId) :
    (s.lowerTerminator b next).2 ≠ .error (.missingValue id) := by
  rw [(s.lowerTerminator_adds b next).2, hs, Ne, Session.end_ofDecision_eq_error_iff]
  exact fun hError => hSound.not_lostControl hb id (lostControl_of_missing hError)

theorem lower_ne_missing (options : Options) (id : ValueId) :
    (f.lower options).result ≠ .error (.missingValue id) := by
  rw [Ne, result_eq_error_iff, layoutSteps_eq_flatMap, runPiece_flatMap_eq_error_iff]
  rintro ⟨k, x, hx, -, hEnd⟩
  -- the block is one of the function
  have hb : x.1 ∈ f.blocks := by
    rw [← map_fst_followed f.blocks]
    exact List.mem_map.mpr ⟨x, List.mem_of_getElem? hx, rfl⟩
  -- the first error of a block would be at an entry, a value or the terminator
  cases end_steps_eq_error_iff.mp hEnd with
  | missing hEntry _ hNone =>
    obtain ⟨v, hv, -⟩ := hSound.entries x.1 hb id (List.mem_of_getElem? hEntry)
    rw [hNone] at hv
    cases hv
  | value _ _ hValue _ hFails =>
    exact hSound.lowerValue_ne_missing rfl (List.mem_of_getElem? hValue) id hFails
  | terminator _ _ hFails => exact hSound.lowerTerminator_ne_missing rfl hb x.2 id hFails

end Func.Sound

/-- **Lowering never ends for a missing value once a function is accepted**, be
it as it is or as a text; neither as a whole, nor in a session of the function
for any of its values and blocks. -/
theorem Func.accepted_never_misses (f : Func)
    (hAccepted : f.check = .ok () ∨ ∃ text, Func.load text = .ok f) (id : ValueId) :
    (∀ options, (f.lower options).result ≠ .error (.missingValue id)) ∧
    ∀ s : Session, s.func = f →
      (∀ v ∈ f.values, (s.lowerValue v).2 ≠ .error (.missingValue id)) ∧
      ∀ b ∈ f.blocks, ∀ next, (s.lowerTerminator b next).2 ≠ .error (.missingValue id) := by
  have hSound : f.Sound := by
    -- a text is only loaded if it passes the check
    rcases hAccepted with hCheck | ⟨text, hLoad⟩
    · exact check_eq_ok_iff.mp hCheck
    · exact check_eq_ok_iff.mp (Command.load_eq_ok_iff.mp hLoad).2
  refine ⟨fun options => hSound.lower_ne_missing options id, fun s hs => ⟨?_, ?_⟩⟩
  · intro v hv
    exact hSound.lowerValue_ne_missing hs hv id
  · intro b hb next
    exact hSound.lowerTerminator_ne_missing hs hb next id

theorem Func.accepted_never_misses_max :
    Demo.max.check = .ok () ∧ (Demo.max.lower {}).result ≠ .error (.missingValue 7) := by
  have hCheck : Demo.max.check = .ok () := rfl
  exact ⟨hCheck, (Func.accepted_never_misses Demo.max (.inl hCheck) 7).1 {}⟩

/-! ## Ids that the check does not look at -/

namespace Func

/-- Every id of a value in the function: of values, as arguments, in schedules,
of control values and of slots. -/
def valueIds (f : Func) : List ValueId :=
  f.values.map (·.id) ++ f.values.flatMap (·.args) ++ f.blocks.flatMap (·.values) ++
    f.blocks.filterMap (·.control) ++ f.slots.keys

/-- The id leads to the value that has it. -/
def ResolvesValue (f : Func) (id : ValueId) : Prop := ∃ v, f.value? id = some v ∧ v.id = id

/-- The id leads to a block of the function. -/
def ResolvesBlock (f : Func) (id : BlockId) : Prop := ∃ b ∈ f.blocks, f.block? id = some b

/-- All ids in the function lead somewhere. -/
structure IdsResolve (f : Func) : Prop where
  values : ∀ id ∈ f.valueIds, f.ResolvesValue id
  succs : ∀ b ∈ f.blocks, ∀ id ∈ b.succs, f.ResolvesBlock id
  owners : ∀ v ∈ f.values, f.ResolvesBlock v.block

variable {f : Func}

/-- A block is found by its id, whichever block of that id comes first. -/
theorem resolvesBlock_iff {id : BlockId} : f.ResolvesBlock id ↔ f.HasBlock id := by
  constructor
  · rintro ⟨b, hb, hFound⟩
    exact ⟨b, hb, by simpa using List.find?_some hFound⟩
  · intro hHas
    -- a lookup that finds nothing means that there is none
    cases hFound : f.block? id with
    | none => exact absurd hHas (block?_eq_none_iff.mp hFound)
    | some b => exact ⟨b, List.mem_of_find?_eq_some hFound, hFound⟩

namespace Sound

variable (hSound : f.Sound)

include hSound

theorem resolvesValue {id : ValueId} (h : f.HasValue id) : f.ResolvesValue id := by
  have hGet : f.value? id = some (f.values.get ⟨_, h⟩) := List.getElem?_eq_getElem h
  exact ⟨_, hGet, hSound.id_eq hGet⟩

/-- Whatever the place of an id of a value, the check has looked at it. -/
theorem valueIds_resolve {id : ValueId} (h : id ∈ f.valueIds) : f.ResolvesValue id := by
  apply hSound.resolvesValue
  simp only [valueIds, List.mem_append, List.mem_map, List.mem_flatMap, List.mem_filterMap] at h
  -- an id of a value, an argument, an entry, a control value or a slot
  rcases h with (((⟨v, hv, rfl⟩ | ⟨v, hv, hArg⟩) | ⟨b, hb, hEntry⟩) | ⟨b, hb, hControl⟩) | hSlot
  · obtain ⟨i, hi⟩ := List.mem_iff_getElem?.mp hv
    rw [HasValue, hSound.ids i v hi]
    exact (List.getElem?_eq_some_iff.mp hi).1
  · exact hSound.args v hv id hArg
  · obtain ⟨v, hv, -⟩ := hSound.entries b hb id hEntry
    exact hasValue_of_value? hv
  · exact hSound.controls b hb id hControl
  · exact hSound.slots id hSlot

/-- The owner of a value that some block schedules is that block. -/
theorem owner_resolves {v : Value} (hv : v ∈ f.values)
    (hEntry : v.id ∈ f.blocks.flatMap (·.values)) : f.HasBlock v.block := by
  obtain ⟨b, hb, hIn⟩ := List.mem_flatMap.mp hEntry
  obtain ⟨w, hw, hOwner⟩ := hSound.entries b hb v.id hIn
  -- the number leads back to the value itself
  obtain ⟨i, hi⟩ := List.mem_iff_getElem?.mp hv
  rw [value?, hSound.ids i v hi, hi] at hw
  obtain rfl := Option.some.inj hw
  exact ⟨b, hb, hOwner.symm⟩

end Sound

/-- **In an accepted function all ids lead somewhere, but for the owners of
values that no block schedules.** These are what is left to ask for. -/
theorem accepted_ids_resolve (f : Func) (hCheck : f.check = .ok ()) :
    (∀ id ∈ f.valueIds, f.ResolvesValue id) ∧
    (∀ b ∈ f.blocks, ∀ id ∈ b.succs, f.ResolvesBlock id) ∧
    (∀ v ∈ f.values, v.id ∈ f.blocks.flatMap (·.values) → f.ResolvesBlock v.block) ∧
    (f.IdsResolve ↔
      ∀ v ∈ f.values, v.id ∉ f.blocks.flatMap (·.values) → f.ResolvesBlock v.block) := by
  have hSound := check_eq_ok_iff.mp hCheck
  have hValues : ∀ id ∈ f.valueIds, f.ResolvesValue id := fun id => hSound.valueIds_resolve
  have hSuccs : ∀ b ∈ f.blocks, ∀ id ∈ b.succs, f.ResolvesBlock id := fun b hb id hId =>
    resolvesBlock_iff.mpr (hSound.succs b hb id hId)
  have hScheduled : ∀ v ∈ f.values, v.id ∈ f.blocks.flatMap (·.values) →
      f.ResolvesBlock v.block := fun v hv hEntry =>
    resolvesBlock_iff.mpr (hSound.owner_resolves hv hEntry)
  refine ⟨hValues, hSuccs, hScheduled, fun h v hv _ => h.owners v hv, fun hRest => ?_⟩
  refine ⟨hValues, hSuccs, fun v hv => ?_⟩
  -- the owner of a scheduled value is compared with the block that schedules it
  by_cases hEntry : v.id ∈ f.blocks.flatMap (·.values)
  · exact hScheduled v hv hEntry
  · exact hRest v hv hEntry

/-- All ids of the function that computes a maximum lead somewhere, as all its values are scheduled.
-/
theorem accepted_ids_resolve_max : Demo.max.check = .ok () ∧ Demo.max.IdsResolve := by
  have hCheck : Demo.max.check = .ok () := rfl
  refine ⟨hCheck, (accepted_ids_resolve Demo.max hCheck).2.2.2.mpr ?_⟩
  -- all of its values are scheduled
  have hAll : ∀ v ∈ Demo.max.values, v.id ∈ Demo.max.blocks.flatMap (·.values) := by decide
  exact fun v hv hNot => absurd (hAll v hv) hNot

/-- A value that nothing schedules, of a block that does not exist. -/
def stray : Func where
  name := "f"
  values := [{ id := 0, op := .initMem, ty := .mem, block := 5 }]
  blocks := [{ id := 0, kind := .ret }]

/-- Such a function is accepted, although an id in it leads nowhere. -/
theorem stray_accepted : stray.check = .ok () ∧ ¬ stray.IdsResolve := by
  refine ⟨rfl, fun hAll => ?_⟩
  obtain ⟨b, -, hFound⟩ := hAll.owners _ (List.mem_singleton.mpr rfl)
  cases hFound

end Func

end RiscvLowering
