import RiscvLowering.Command.Demo
import RiscvLowering.Proofs.Integrity
import RiscvLowering.Proofs.LockStep
import RiscvLowering.Proofs.Schedule

/-!
# Splitting — a block cut in two

A block may be cut at any place of its schedule: the entries before the cut stay
in a plain block of the same id, whose only successor is a new block with the
rest. As the new block follows in the layout, it is reached for nothing. So a
cut changes no code; all that is new is the start of the new block.

* `Cut` — where a block is cut, with the two blocks that come of it;
* `Func.split` — the function with these blocks in the place of the one.

Main results:

* `Sound.split` — a cut leaves a sound function sound.
* `Leaves.back` — control leaves the new block as it left the block that was cut.
* `split_keeps_code` — the function with the cut is lowered to the same.
-/

namespace RiscvLowering

/-! ## Cuts -/

/-- A block, with how many entries of its schedule stay before the cut, and the
id of the block that the others go to. -/
structure Cut where
  block : Block
  entries : Nat
  fresh : BlockId
  /-- The line on which the entries before the cut are left. -/
  line : Line := .unknown

namespace Cut

/-- The entries before the cut, in a block that goes on to the others. -/
def front (c : Cut) : Block where
  id := c.block.id
  kind := .plain
  values := c.block.values.take c.entries
  succs := [c.fresh]
  line := c.line

/-- The entries behind the cut, in a block that is left as the whole was. -/
def back (c : Cut) : Block :=
  { c.block with id := c.fresh, values := c.block.values.drop c.entries }

/-- A value behind the cut belongs to the new block. -/
def move (c : Cut) (v : Value) : Value :=
  { v with block := if v.id ∈ c.back.values then c.fresh else v.block }

end Cut

namespace Func

/-- The function with its `k`-th block cut. -/
def split (f : Func) (k : Nat) (c : Cut) : Func :=
  { f with
    values := f.values.map c.move
    blocks := f.blocks.take k ++ c.front :: c.back :: f.blocks.drop (k + 1) }

/-- The `k`-th block can be cut so: the id of the new block is new, and if the
block branches, what it decides by lies behind the cut. -/
structure CanSplit (f : Func) (k : Nat) (c : Cut) : Prop where
  block : f.blocks[k]? = some c.block
  fresh : ¬ f.HasBlock c.fresh
  control : c.block.kind = .branch → ∀ id, c.block.control = some id → id ∈ c.back.values

variable {f : Func} {k : Nat} {c : Cut} {id : ValueId} {v : Value} {b : Block}

theorem value?_split (f : Func) (k : Nat) (c : Cut) (id : ValueId) :
    (f.split k c).value? id = (f.value? id).map c.move := List.getElem?_map ..

theorem hasValue_split : (f.split k c).HasValue id ↔ f.HasValue id := by
  rw [HasValue, HasValue, split, List.length_map]

/-- The blocks with the cut are both halves and the other blocks. -/
theorem mem_blocks_split :
    b ∈ (f.split k c).blocks ↔ b = c.front ∨ b = c.back ∨ b ∈ f.blocks.eraseIdx k := by
  simp only [split, List.eraseIdx_eq_take_drop_succ, List.mem_append, List.mem_cons]
  tauto

namespace CanSplit

variable (hCan : f.CanSplit k c)

include hCan

/-- The block that is cut stands between the blocks before it and those behind it. -/
theorem blocks_eq : f.blocks = f.blocks.take k ++ c.block :: f.blocks.drop (k + 1) := by
  -- the block that is cut stands at the place of the cut
  obtain ⟨hk, hBlock⟩ := List.getElem?_eq_some_iff.mp hCan.block
  rw [← hBlock, ← List.drop_eq_getElem_cons hk, List.take_append_drop]

theorem mem_block : c.block ∈ f.blocks := List.mem_of_getElem? hCan.block

theorem mem_blocks_iff : b ∈ f.blocks ↔ b = c.block ∨ b ∈ f.blocks.eraseIdx k := by
  conv_lhs => rw [hCan.blocks_eq]
  simp only [List.eraseIdx_eq_take_drop_succ, List.mem_append, List.mem_cons]
  tauto

/-- The ids of all blocks still lead to a block. -/
theorem hasBlock_split {target : BlockId} (h : f.HasBlock target) :
    (f.split k c).HasBlock target := by
  obtain ⟨b, hb, rfl⟩ := h
  rcases hCan.mem_blocks_iff.mp hb with rfl | hOther
  · exact ⟨c.front, mem_blocks_split.mpr (.inl rfl), rfl⟩
  · exact ⟨b, mem_blocks_split.mpr (.inr (.inr hOther)), rfl⟩

/-- Both halves together schedule what the block did. -/
theorem schedule_eq :
    (f.split k c).blocks.flatMap (·.values) = f.blocks.flatMap (·.values) := by
  have hHalves : c.front.values ++ c.back.values = c.block.values := List.take_append_drop ..
  conv_rhs => rw [hCan.blocks_eq, List.flatMap_append, List.flatMap_cons, ← hHalves]
  rw [split, List.flatMap_append, List.flatMap_cons, List.flatMap_cons, List.append_assoc]

/-! ## Soundness -/

variable (hSound : f.Sound)

include hSound

/-- The id of another block is not that of the block that is cut. -/
theorem other_ne (hOther : b ∈ f.blocks.eraseIdx k) : b.id ≠ c.block.id := by
  -- the ids of a sound function do not repeat
  have hIds := hSound.blockIds
  -- without the block that is cut, its id is not among the others
  rw [hCan.blocks_eq, List.map_append, List.map_cons, List.nodup_middle, ← List.map_append,
    ← List.eraseIdx_eq_take_drop_succ] at hIds
  exact fun hSame => (List.nodup_cons.mp hIds).1 (hSame ▸ List.mem_map_of_mem hOther)

theorem owner_eq (hId : id ∈ c.block.values) (hv : f.value? id = some v) :
    v.block = c.block.id := by
  obtain ⟨w, hw, hOwner⟩ := hSound.entries c.block hCan.mem_block id hId
  obtain rfl := Option.some.inj (hv.symm.trans hw)
  exact hOwner

/-- No other block gains or loses values. -/
theorem owner_move_iff (hOther : b ∈ f.blocks.eraseIdx k) (hv : f.value? id = some v) :
    (c.move v).block = b.id ↔ v.block = b.id := by
  rw [Cut.move]
  split
  · -- a value behind the cut belonged to the block that is cut, and then to the new one
    rename_i hMoved
    rw [hSound.id_eq hv] at hMoved
    have hOwner := hCan.owner_eq hSound (List.mem_of_mem_drop hMoved) hv
    have hFresh : c.fresh ≠ b.id := fun hSame =>
      hCan.fresh ⟨b, hCan.mem_blocks_iff.mpr (.inr hOther), hSame.symm⟩
    have hNe : v.block ≠ b.id := fun hSame =>
      hCan.other_ne hSound hOther (hSame.symm.trans hOwner)
    exact iff_of_false hFresh hNe
  · rfl

/-- What stays before the cut stays with the block. -/
theorem owner_front (hId : id ∈ c.front.values) (hv : f.value? id = some v) :
    (c.move v).block = c.block.id := by
  -- no value stands on both sides of the cut
  have hNodup : c.block.values.Nodup :=
    (List.nodup_flatMap.mp hSound.once).1 c.block hCan.mem_block
  have hStays : id ∉ c.back.values := fun hMoved =>
    List.disjoint_take_drop hNodup (Nat.le_refl c.entries) hId hMoved
  rw [← hSound.id_eq hv] at hStays
  rw [Cut.move, if_neg hStays]
  exact hCan.owner_eq hSound (List.mem_of_mem_take hId) hv

omit hCan in
/-- What moves behind the cut moves to the new block. -/
theorem owner_back (hId : id ∈ c.back.values) (hv : f.value? id = some v) :
    (c.move v).block = c.fresh := by
  rw [← hSound.id_eq hv] at hId
  rw [Cut.move, if_pos hId]

/-- Each entry of a schedule belongs to the block that it is scheduled in. -/
theorem entries_split (hb : b ∈ (f.split k c).blocks) (hId : id ∈ b.values) :
    ∃ v, (f.split k c).value? id = some v ∧ v.block = b.id := by
  rw [value?_split]
  -- the front, the back, or a block that was left alone
  rcases mem_blocks_split.mp hb with rfl | rfl | hOther
  · obtain ⟨v, hv, -⟩ := hSound.entries c.block hCan.mem_block id (List.mem_of_mem_take hId)
    exact ⟨c.move v, by rw [hv]; rfl, hCan.owner_front hSound hId hv⟩
  · obtain ⟨v, hv, -⟩ := hSound.entries c.block hCan.mem_block id (List.mem_of_mem_drop hId)
    exact ⟨c.move v, by rw [hv]; rfl, owner_back hSound hId hv⟩
  · obtain ⟨v, hv, hOwner⟩ := hSound.entries b (hCan.mem_blocks_iff.mpr (.inr hOther)) id hId
    exact ⟨c.move v, by rw [hv]; rfl, (hCan.owner_move_iff hSound hOther hv).mpr hOwner⟩

/-- The ids of the blocks do not repeat, as the new one is fresh. -/
theorem nodup_ids_split : ((f.split k c).blocks.map (·.id)).Nodup := by
  have hIds := hSound.blockIds
  have hNew : c.fresh ∉ f.blocks.map (·.id) := fun hOld => hCan.fresh (List.mem_map.mp hOld)
  rw [hCan.blocks_eq, List.map_append, List.map_cons] at hIds hNew
  rw [split, List.map_append, List.map_cons, List.map_cons]
  -- the new id stands behind the one of the block
  rw [List.append_cons, List.nodup_middle, List.append_assoc]
  exact List.nodup_cons.mpr ⟨hNew, hIds⟩

end CanSplit

/-- **A cut leaves a sound function sound.** -/
theorem Sound.split (hSound : f.Sound) (hCan : f.CanSplit k c) : (f.split k c).Sound where
  ids i v hv := by
    rw [Func.split, List.getElem?_map, Option.map_eq_some_iff] at hv
    obtain ⟨w, hw, rfl⟩ := hv
    exact hSound.ids i w hw
  args v hv id hId := by
    obtain ⟨w, hw, rfl⟩ := List.mem_map.mp hv
    exact hasValue_split.mpr (hSound.args w hw id hId)
  blockIds := hCan.nodup_ids_split hSound
  entries b hb id hId := hCan.entries_split hSound hb hId
  once := by
    rw [hCan.schedule_eq]
    exact hSound.once
  controls b hb id hId := by
    rw [hasValue_split]
    rcases mem_blocks_split.mp hb with rfl | rfl | hOther
    · -- the block with the front has no control value
      cases hId
    · exact hSound.controls c.block hCan.mem_block id hId
    · exact hSound.controls b (hCan.mem_blocks_iff.mpr (.inr hOther)) id hId
  succs b hb id hId := by
    rcases mem_blocks_split.mp hb with rfl | rfl | hOther
    · -- the front goes on to the back, and to nothing else
      obtain rfl := List.mem_singleton.mp hId
      exact ⟨c.back, mem_blocks_split.mpr (.inr (.inl rfl)), rfl⟩
    · exact hCan.hasBlock_split (hSound.succs c.block hCan.mem_block id hId)
    · exact hCan.hasBlock_split (hSound.succs b (hCan.mem_blocks_iff.mpr (.inr hOther)) id hId)
  slots id hId := hasValue_split.mpr (hSound.slots id hId)

/-! ## Steps -/

/-- A lookup finds what it found, or on both sides nothing. -/
theorem rel_value?_split {R : Value → Value → Prop} {id : ValueId}
    (h : ∀ v, f.value? id = some v → R v (c.move v)) :
    Option.Rel R (f.value? id) ((f.split k c).value? id) := by
  rw [value?_split]
  cases hv : f.value? id with
  | none => exact .none
  | some v => exact .some (h v hv)

/-- Of a value that changes its owner, lowering reads what it read before. -/
theorem readAlike_move (f : Func) (k : Nat) (c : Cut) (v : Value) :
    f.ReadAlike .same (f.split k c) v (c.move v) :=
  readAlike_owner _ rfl fun _ _ => rel_value?_split fun _ _ => ⟨rfl, rfl, rfl⟩

theorem valueSteps_alike (ids : List ValueId) :
    List.Forall₂ (f.StepAlike .same (f.split k c)) (ids.map .value) (ids.map .value) := by
  refine List.forall₂_same.mpr fun x hx => ?_
  obtain ⟨id, -, rfl⟩ := List.mem_map.mp hx
  exact .value (rel_value?_split fun v _ => readAlike_move f k c v)

/-- The steps of other blocks are taken alike. -/
theorem CanSplit.steps_alike (hCan : f.CanSplit k c) (hSound : f.Sound) {bs : List Block}
    (hOthers : ∀ b ∈ bs, b ∈ f.blocks.eraseIdx k) (next : Option BlockId) :
    List.Forall₂ (f.StepAlike .same (f.split k c)) (stepsUpTo next bs) (stepsUpTo next bs) := by
  refine List.forall₂_same.mpr fun x hx => ?_
  obtain ⟨b, hb, rfl | ⟨id, -, rfl⟩ | ⟨next, rfl⟩⟩ := exists_block_of_mem_stepsUpTo hx
  · exact .start rfl
  · exact .value (rel_value?_split fun v _ => readAlike_move f k c v)
  · refine .terminator (exitAlike_self next fun id _ => rel_value?_split fun v hv => ?_)
    exact ⟨readAlike_move f k c v, (hCan.owner_move_iff hSound (hOthers b hb) hv).symm⟩

variable {options : Options} {actions : List Action} {next : Option BlockId}

/-- The control value has moved to the new block, and is its last. -/
theorem CanSplit.controlValue_back (hCan : f.CanSplit k c) (hSound : f.Sound)
    (hKind : c.block.kind = .branch) (h : f.controlValue c.block = .ok v) :
    (f.split k c).controlValue c.back = .ok (c.move v) := by
  obtain ⟨id, hControl, hv, -, hLast⟩ := controlValue_eq_ok_iff.mp h
  have hMoved : id ∈ c.back.values := hCan.control hKind id hControl
  refine controlValue_eq_ok_iff.mpr ⟨id, hControl, ?_, owner_back hSound hMoved hv, ?_⟩
  · rw [value?_split, hv]
    rfl
  · -- as something lies behind the cut, both schedules end alike
    have hSome : ¬ c.block.values.length ≤ c.entries := fun hAll => by
      rw [Cut.back, List.drop_eq_nil_of_le hAll] at hMoved
      exact absurd hMoved List.not_mem_nil
    rw [Cut.back, List.getLast?_drop, if_neg hSome, hLast]

/-- **Control leaves the new block as it left the block that was cut.** -/
theorem Leaves.back (h : f.Leaves c.block next actions) (hCan : f.CanSplit k c)
    (hSound : f.Sound) : (f.split k c).Leaves c.back next actions := by
  cases h with
  | goto hKind hSuccs => exact .goto hKind hSuccs
  | exit hKind => exact .exit hKind
  | ret hKind => exact .ret hKind
  | @branch v _ _ _ _ _ hKind hControl hOp hSuccs h1 h2 =>
    -- the only way out that looks at an owner
    have hRead := readAlike_move f k c v
    exact .branch hKind (hCan.controlValue_back hSound hKind hControl) hOp hSuccs
      ((hRead.argRegister 0).eq_ok h1) ((hRead.argRegister 1).eq_ok h2)

/-! ## Runs -/

/-- The steps of a layout up to the cut, from the start of `b` on in the block. -/
def stepsBefore (f : Func) (k : Nat) (c : Cut) (b : Block) : List Step :=
  stepsUpTo (some c.block.id) (f.blocks.take k) ++ .start b :: c.front.values.map .value

/-- The steps of a layout behind the cut, where the block is left as `b`. -/
def stepsBehind (f : Func) (k : Nat) (c : Cut) (b : Block) : List Step :=
  c.back.values.map .value ++
    .terminator b ((f.blocks.drop (k + 1)).head?.map (·.id)) ::
      layoutSteps (f.blocks.drop (k + 1))

/-- The layout is the steps up to the cut, and those behind it. -/
theorem CanSplit.layoutSteps_eq (hCan : f.CanSplit k c) :
    layoutSteps f.blocks = f.stepsBefore k c c.block ++ f.stepsBehind k c c.block := by
  -- the schedule is the two halves, one behind the other
  have hHalves : c.block.values = c.front.values ++ c.back.values :=
    (List.take_append_drop ..).symm
  conv_lhs => rw [hCan.blocks_eq, layoutSteps_append, layoutSteps, Block.steps, hHalves]
  simp [stepsBefore, stepsBehind]

/-- With the cut, the first half is left and the second started in between. -/
theorem layoutSteps_split (f : Func) (k : Nat) (c : Cut) :
    layoutSteps (f.split k c).blocks =
      f.stepsBefore k c c.front ++
        ([.terminator c.front (some c.fresh), .start c.back] ++ f.stepsBehind k c c.back) := by
  rw [split, layoutSteps_append, layoutSteps, layoutSteps, Block.steps, Block.steps]
  simp [stepsBefore, stepsBehind, Cut.front, Cut.back]

section Lowers

variable {p : Piece} (hCan : f.CanSplit k c) (hSound : f.Sound)

include hCan hSound

/-- The steps up to the cut leave the same behind. -/
theorem CanSplit.lowers_before (h : f.Lowers options (f.stepsBefore k c c.block) p) :
    (f.split k c).Lowers options (f.stepsBefore k c c.front) p := by
  refine h.of_alike (List.rel_append (hCan.steps_alike hSound (fun b hb => ?_) _)
    (.cons (.start rfl) (valueSteps_alike _)))
  rw [List.eraseIdx_eq_take_drop_succ]
  exact List.mem_append_left _ hb

/-- The steps behind the cut leave the same behind, although the block is left from another one. -/
theorem CanSplit.lowers_behind (h : f.Lowers options (f.stepsBehind k c c.block) p) :
    (f.split k c).Lowers options (f.stepsBehind k c c.back) p := by
  -- the rest of the schedule, the way out, and the blocks behind
  obtain ⟨body, r, hBody, hRest, rfl⟩ := lowers_append_iff.mp h
  obtain ⟨exit, rest, hExit, hLater, rfl⟩ := lowers_cons_iff.mp hRest
  obtain ⟨actions, hActions, hPiece⟩ := ofDecision_eq_ok_iff.mp hExit
  -- the new block is left as the block was, although its id is another one
  have hLeaves := (lowerTerminator_eq_ok_iff.mp hActions).back hCan hSound
  have hExit' := ofDecision_eq_ok_iff.mpr ⟨actions, lowerTerminator_eq_ok_iff.mpr hLeaves, hPiece⟩
  have hLater' : (f.split k c).Lowers options (layoutSteps (f.blocks.drop (k + 1))) rest := by
    -- nothing follows these blocks
    rw [← List.append_nil (f.blocks.drop (k + 1)), layoutSteps_append] at hLater ⊢
    refine hLater.of_alike (List.rel_append (hCan.steps_alike hSound (fun b hb => ?_) _) .nil)
    rw [List.eraseIdx_eq_take_drop_succ]
    exact List.mem_append_right _ hb
  exact lowers_append_iff.mpr ⟨body, _, hBody.of_alike (valueSteps_alike _),
    lowers_cons_iff.mpr ⟨exit, rest, hExit', hLater', rfl⟩, rfl⟩

end Lowers

/-- The first half goes on to the second for nothing, and that one starts. -/
theorem lowers_cut (g : Func) (options : Options) (c : Cut) :
    g.Lowers options [.terminator c.front (some c.fresh), .start c.back]
      { starts := [⟨c.fresh, 0⟩] } := by
  have hLeaves : g.Leaves c.front (some c.fresh) (gotoActions c.fresh (some c.fresh)) :=
    .goto (.inl rfl) rfl
  rw [gotoActions, if_pos rfl] at hLeaves
  have hExit : g.stepPiece options (.terminator c.front (some c.fresh)) = ({}, .ok ()) :=
    ofDecision_eq_ok_iff.mpr ⟨_, lowerTerminator_eq_ok_iff.mpr hLeaves, rfl⟩
  exact lowers_cons_iff.mpr ⟨{}, { starts := [⟨c.fresh, 0⟩] }, hExit, lowers_singleton_iff.mpr rfl,
    (Piece.empty_append _).symm⟩

/-- Before the cut, the last block to start is the one that is cut, and from
there on the code is that of the entries before the cut. -/
theorem CanSplit.starts_before (hCan : f.CanSplit k c) {p : Piece}
    (h : f.Lowers options (f.stepsBefore k c c.block) p) :
    p.starts.length = k + 1 ∧ ∃ start, p.starts[k]? = some ⟨c.block.id, start⟩ ∧
      p.code.length = start + (c.front.values.flatMap (f.valueCode options)).length := by
  obtain ⟨q, r, hEarlier, hRest, rfl⟩ := lowers_append_iff.mp h
  obtain ⟨first, body, hFirst, hBody, rfl⟩ := lowers_cons_iff.mp hRest
  obtain ⟨rfl, -⟩ := Prod.mk.inj hFirst
  obtain ⟨-, hStarts, hInsts, -⟩ := lowers_values hBody
  -- each block in front has started once
  have hLength : q.starts.length = k := by
    have hIds := map_starts_of_lowers hEarlier
    have hk : k < f.blocks.length := (List.getElem?_eq_some_iff.mp hCan.block).1
    rw [filterMap_start?_stepsUpTo] at hIds
    rw [← List.length_map, hIds, List.length_map, List.length_take,
      Nat.min_eq_left (Nat.le_of_lt hk)]
  have hCode := congrArg List.length hInsts
  rw [List.length_map] at hCode
  refine ⟨?_, q.code.length, ?_, ?_⟩
  · simp [hStarts, hLength]
  · rw [Piece.starts_append, List.getElem?_append_right (Nat.le_of_eq hLength), hLength,
      Nat.sub_self]
    rfl
  · simp [hCode]

end Func

/-- What stands first in the second part is inserted behind the first one. -/
theorem insertIdx_length_append {α : Type} (xs ys : List α) (x : α) :
    (xs ++ ys).insertIdx xs.length x = xs ++ x :: ys := by
  induction xs with
  | nil => rfl
  | cons y xs ih => rw [List.cons_append, List.length_cons, List.insertIdx_succ_cons, ih]; rfl

/-- A start between two pieces is one more start, and nothing else. -/
theorem Piece.output_start (p q : Piece) (id : BlockId) (name : String) :
    (p ++ (({ starts := [⟨id, 0⟩] } : Piece) ++ q)).output name =
      { (p ++ q).output name with
        starts := (p ++ q).starts.insertIdx p.starts.length ⟨id, p.code.length⟩ } ∧
    (p ++ (({ starts := [⟨id, 0⟩] } : Piece) ++ q)).marks = (p ++ q).marks := by
  rw [← append_assoc, starts_append, insertIdx_length_append]
  constructor
  · simp [output, BlockStart.shift]
  · simp

namespace Func

/-- **Splitting a block keeps the code.** A checked function that is lowered is,
with any of its blocks cut at any place, still checked, and lowered to the same
code, branches, gaps and marks. The one difference is that the new block starts,
behind the block that was cut, where the code of the entries before the cut ends. -/
theorem split_keeps_code {f : Func} {options : Options} {k : Nat} {c : Cut} {out : Output}
    (hCheck : f.check = .ok ()) (hCan : f.CanSplit k c)
    (h : (f.lower options).result = .ok out) :
    (f.split k c).check = .ok () ∧
      ((f.split k c).lower options).marks = (f.lower options).marks ∧
      ∃ start, out.starts[k]? = some ⟨c.block.id, start⟩ ∧
        ((f.split k c).lower options).result = .ok { out with
          starts := out.starts.insertIdx (k + 1)
            ⟨c.fresh, start + (c.front.values.flatMap (f.valueCode options)).length⟩ } := by
  have hSound := check_eq_ok_iff.mp hCheck
  obtain ⟨p, hLowers, rfl, hMarks⟩ := exists_lowers_of_result_eq_ok h
  rw [hCan.layoutSteps_eq] at hLowers
  obtain ⟨before, behind, hBefore, hBehind, rfl⟩ := lowers_append_iff.mp hLowers
  -- both parts are lowered as before, and between them only the new block starts
  have hSplit : (f.split k c).Lowers options (layoutSteps (f.split k c).blocks)
      (before ++ (({ starts := [⟨c.fresh, 0⟩] } : Piece) ++ behind)) := by
    rw [layoutSteps_split]
    exact lowers_append_iff.mpr ⟨_, _, hCan.lowers_before hSound hBefore,
      lowers_append_iff.mpr ⟨_, _, lowers_cut _ options c, hCan.lowers_behind hSound hBehind, rfl⟩,
      rfl⟩
  obtain ⟨hLength, start, hStart, hCode⟩ := hCan.starts_before hBefore
  obtain ⟨hOutput, hSame⟩ := Piece.output_start before behind c.fresh f.name
  obtain ⟨hResult, hMarks'⟩ := lower_eq_of_runPiece hSplit
  refine ⟨check_eq_ok_iff.mpr (hSound.split hCan), ?_, start, ?_, ?_⟩
  · rw [hMarks', hSame, hMarks]
  · exact (List.getElem?_append_left (by omega)).trans hStart
  · rw [hLength, hCode] at hOutput
    exact hResult.trans (congrArg Except.ok hOutput)

/-- A loop that decides by the last value whether it goes back to itself. -/
def loopBlock : Block where
  id := 1
  kind := .branch
  values := [1, 2, 3]
  control := some 3
  succs := [1, 2]
  line := ⟨3⟩

/-- Counts down to 0. -/
def countdown : Func where
  name := "countdown"
  values := [{ id := 0, op := .arg, ty := Demo.int64, reg := some .a0, block := 0 },
    { id := 1, op := .aluImm .addi, ty := Demo.int64, args := [0], auxInt := -1,
      reg := some .a0, block := 1, line := ⟨2⟩ },
    { id := 2, op := .const .quad, ty := Demo.int64, reg := some .t0, block := 1, line := ⟨3⟩ },
    { id := 3, op := .compare .ne, ty := .flags, args := [1, 2], block := 1, line := ⟨3⟩ }]
  blocks := [{ id := 0, kind := .plain, values := [0], succs := [1] }, loopBlock,
    { id := 2, kind := .ret, line := ⟨4⟩ }]

/-- With the loop cut behind its first instruction, the branch still goes back to that. -/
theorem split_keeps_code_countdown :
    let cut : Cut := { block := loopBlock, entries := 1, fresh := 7 }
    let g := countdown.split 1 cut
    countdown.check = .ok () ∧ countdown.CanSplit 1 cut ∧ g.check = .ok () ∧
      ∃ out, (countdown.lower {}).result = .ok out ∧
        out.starts = [⟨0, 0⟩, ⟨1, 0⟩, ⟨2, 3⟩] ∧ out.branches = [⟨2, 1⟩] ∧
        (g.lower {}).result =
          .ok { out with starts := [⟨0, 0⟩, ⟨1, 0⟩, ⟨7, 1⟩, ⟨2, 3⟩] } := by
  intro cut g
  have hCheck : countdown.check = .ok () := rfl
  have hCan : countdown.CanSplit 1 cut := by
    refine ⟨rfl, by simp [HasBlock, countdown, loopBlock, cut], ?_⟩
    -- the control value stays behind the cut
    rintro - id hId
    obtain rfl := Option.some.inj hId
    decide
  have hLower : (countdown.lower {}).result = .ok _ := rfl
  obtain ⟨hAgain, -, start, hStart, hResult⟩ := split_keeps_code hCheck hCan hLower
  obtain rfl : 0 = start := congrArg BlockStart.index (Option.some.inj hStart)
  exact ⟨hCheck, hCan, hAgain, _, rfl, rfl, rfl, hResult⟩

end Func

end RiscvLowering
