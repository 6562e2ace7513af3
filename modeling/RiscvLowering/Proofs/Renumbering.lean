import Mathlib.Data.Fin.Rev
import Mathlib.Data.List.OfFn
import RiscvLowering.Command.Demo
import RiscvLowering.Proofs.Integrity
import RiscvLowering.Proofs.LockStep

/-!
# Renumbering — the numbers of values and the ids of blocks do not matter

The values of a function can be put into another order, and its blocks can be
given other ids. `Func.renumber` does both: what stands at an index of the arena
moves, and every id in the function follows. The layout stays as it is.

Main results:

* `value?_renumber`, `slot?_renumber` — look-ups follow the numbers.
* `Sound.renumber` — a sound function stays sound.
* `renumber_lowers` — it is lowered as before, but for the ids of blocks.
-/

namespace RiscvLowering

/-! ## Renaming -/

/-- The number of a value whose index is moved. A number outside the arena stays. -/
def ValueId.move {n : Nat} (σ : Equiv.Perm (Fin n)) (id : ValueId) : ValueId :=
  if h : id.toNat < n then UInt32.ofNat (σ ⟨id.toNat, h⟩) else id

/-- A value under other numbers: its own, those of its arguments and that of its block. -/
def Value.rename (ρ : ValueId → ValueId) (π : BlockId → BlockId) (v : Value) : Value :=
  { v with id := ρ v.id, args := v.args.map ρ, block := π v.block }

/-- A block under another id, whose schedule, control value and successors follow. -/
def Block.rename (ρ : ValueId → ValueId) (π : BlockId → BlockId) (b : Block) : Block :=
  { b with
    id := π b.id
    values := b.values.map ρ
    control := b.control.map ρ
    succs := b.succs.map π }

/-- The table with every slot at the new number of its value. -/
def SlotTable.rename (ρ : ValueId → ValueId) (t : SlotTable) : SlotTable :=
  t.entries.foldr (fun e u => u.insert (ρ e.1) e.2) .empty

/-- The function with the values of its arena moved and its blocks renamed. -/
def Func.renumber (f : Func) (σ : Equiv.Perm (Fin f.values.length)) (π : BlockId → BlockId) :
    Func where
  name := f.name
  values := List.ofFn fun i => (f.values.get (σ.symm i)).rename (.move σ) π
  blocks := f.blocks.map (.rename (.move σ) π)
  slots := f.slots.rename (.move σ)

/-! ## Numbers of values -/

section Move

variable {n : Nat} {σ : Equiv.Perm (Fin n)} {id id' : ValueId}

/-- An id of the arena moves to the index that the permutation gives. -/
theorem toNat_move (hSize : n ≤ UInt32.size) (h : id.toNat < n) :
    (id.move σ).toNat = σ ⟨id.toNat, h⟩ := by
  have hLt := (σ ⟨id.toNat, h⟩).isLt
  rw [ValueId.move, dif_pos h, UInt32.toNat_ofNat_of_lt' (by omega)]

theorem move_of_not_lt (h : ¬ id.toNat < n) : id.move σ = id := by
  rw [ValueId.move, dif_neg h]

/-- Ids of the arena move inside it, and others stay outside. -/
theorem move_lt_iff (hSize : n ≤ UInt32.size) : (id.move σ).toNat < n ↔ id.toNat < n := by
  -- an index of the arena is permuted, any other id stays
  by_cases h : id.toNat < n
  · rw [toNat_move hSize h]
    exact ⟨fun _ => h, fun _ => Fin.isLt _⟩
  · rw [move_of_not_lt h]

/-- No two ids move to the same one. -/
theorem move_injective (hSize : n ≤ UInt32.size) :
    Function.Injective (ValueId.move σ) := by
  intro id id' hMoved
  by_cases h : id.toNat < n
  · -- what moves to the same id is in the arena as well
    have h' : id'.toNat < n := by rwa [← move_lt_iff hSize (σ := σ), ← hMoved, move_lt_iff hSize]
    have hIndex := congrArg UInt32.toNat hMoved
    rw [toNat_move hSize h, toNat_move hSize h'] at hIndex
    have hSame := σ.injective (Fin.ext hIndex)
    exact UInt32.toNat_inj.mp (Fin.mk.inj hSame)
  · -- nothing from the arena is moved out of it
    have h' : ¬ id'.toNat < n := by rwa [← move_lt_iff hSize (σ := σ), ← hMoved, move_lt_iff hSize]
    rwa [move_of_not_lt h, move_of_not_lt h'] at hMoved

end Move

/-! ## Slots -/

namespace SlotTable

theorem mem_keys_insert {t : SlotTable} {id key : ValueId} {slot : Slot}
    (h : key ∈ (t.insert id slot).keys) : key = id ∨ key ∈ t.keys := by
  obtain ⟨e, he, rfl⟩ := List.mem_map.mp h
  rcases mem_insertEntry he with rfl | hOld
  · exact .inl rfl
  · exact .inr (List.mem_map.mpr ⟨e, hOld, rfl⟩)

/-- Each key of a renamed table is the new number of an old key. -/
theorem exists_of_mem_keys_rename {ρ : ValueId → ValueId} {t : SlotTable} {key : ValueId}
    (h : key ∈ (t.rename ρ).keys) : ∃ id ∈ t.keys, key = ρ id := by
  rw [rename] at h
  rw [keys]
  generalize t.entries = es at h
  -- the table is inserted entry by entry
  induction es with
  | nil => simp [empty, keys] at h
  | cons e es ih =>
    rcases mem_keys_insert h with rfl | hRest
    · exact ⟨e.1, by simp, rfl⟩
    · obtain ⟨id, hId, rfl⟩ := ih hRest
      exact ⟨id, List.mem_cons_of_mem _ hId, rfl⟩

/-- Where no two ids become one, a slot is found under the new id. -/
theorem get?_rename {ρ : ValueId → ValueId} (hρ : Function.Injective ρ) (t : SlotTable)
    (id : ValueId) : (t.rename ρ).get? (ρ id) = t.get? id := by
  rw [rename, get?.eq_1 t]
  generalize t.entries = es
  induction es with
  | nil => simp [empty, get?]
  | cons e es ih =>
    rw [List.foldr_cons, get?_insert, ih, List.find?_cons]
    -- the entry is that of the id before and after, or neither
    by_cases hKey : e.1 = id
    · simp [hKey]
    · have hNew : ¬ ρ id = ρ e.1 := fun hSame => hKey (hρ hSame).symm
      simp [hKey, hNew]

end SlotTable

/-! ## Look-ups -/

namespace Func

/-- The numbers of the values of a sound function are all different, so they
do not pass 32 bits. -/
theorem Sound.length_le {f : Func} (h : f.Sound) : f.values.length ≤ UInt32.size := by
  by_contra hMore
  have hLast : f.values[UInt32.size]? = some f.values[UInt32.size] :=
    List.getElem?_eq_getElem (by omega)
  have hId := h.ids _ _ hLast
  have hLt := (f.values[UInt32.size]).id.toNat_lt
  rw [hId] at hLt
  exact Nat.lt_irrefl _ hLt

variable {f : Func} {σ : Equiv.Perm (Fin f.values.length)} {π : BlockId → BlockId}

theorem length_values_renumber : (f.renumber σ π).values.length = f.values.length := by
  simp [renumber]

/-- What stood at an index stands, renamed, where the permutation moves it. -/
theorem getElem?_values_renumber (i : Fin f.values.length) :
    (f.renumber σ π).values[(σ i).val]? = f.values[i.val]?.map (.rename (.move σ) π) := by
  simp [renumber]

/-- Looking up a moved id finds the renamed value, or nothing where nothing was found. -/
theorem value?_renumber (hSize : f.values.length ≤ UInt32.size) (id : ValueId) :
    (f.renumber σ π).value? (id.move σ) = (f.value? id).map (.rename (.move σ) π) := by
  by_cases h : id.toNat < f.values.length
  · rw [value?, toNat_move hSize h, getElem?_values_renumber, value?]
  · -- outside the arena nothing is found, before or after
    have hOut : f.value? id = none := value?_eq_none_iff.mpr h
    have hOut' : (f.renumber σ π).value? id = none := by
      rw [value?_eq_none_iff, HasValue, length_values_renumber]
      exact h
    rw [move_of_not_lt h, hOut, hOut', Option.map_none]

/-- Looking up the slot of a moved id finds the slot that its value had. -/
theorem slot?_renumber (hSize : f.values.length ≤ UInt32.size) (id : ValueId) :
    (f.renumber σ π).slot? (id.move σ) = f.slot? id :=
  f.slots.get?_rename (move_injective hSize) id

theorem hasValue_renumber (hSize : f.values.length ≤ UInt32.size) {id : ValueId}
    (h : f.HasValue id) : (f.renumber σ π).HasValue (id.move σ) := by
  rw [HasValue, length_values_renumber, move_lt_iff hSize]
  exact h

/-! ## Soundness -/

theorem mem_values_renumber {v : Value} (h : v ∈ (f.renumber σ π).values) :
    ∃ w ∈ f.values, v = w.rename (.move σ) π := by
  obtain ⟨i, rfl⟩ := List.mem_ofFn.mp h
  exact ⟨_, List.get_mem _ _, rfl⟩

/-- What is scheduled is what was scheduled, under the new numbers. -/
theorem flatMap_values_renumber :
    (f.renumber σ π).blocks.flatMap (·.values) =
      (f.blocks.flatMap (·.values)).map (.move σ) := by
  rw [renumber, List.flatMap_map, List.map_flatMap]
  rfl

/-- The id of a value moves with the value. -/
theorem ids_renumber (hSound : f.Sound) {i : Nat} {v : Value}
    (h : (f.renumber σ π).values[i]? = some v) : v.id.toNat = i := by
  have hi : i < f.values.length := by
    rw [← length_values_renumber (σ := σ) (π := π)]
    exact (List.getElem?_eq_some_iff.mp h).1
  -- the value comes from the place that is moved here
  obtain ⟨j, hj⟩ := σ.surjective ⟨i, hi⟩
  have hFrom := getElem?_values_renumber (σ := σ) (π := π) j
  rw [hj, h] at hFrom
  obtain ⟨w, hw, rfl⟩ := Option.map_eq_some_iff.mp hFrom.symm
  have hId : w.id.toNat = j.val := hSound.ids _ _ hw
  have hLt : w.id.toNat < f.values.length := hId ▸ j.isLt
  have hFin : (⟨w.id.toNat, hLt⟩ : Fin f.values.length) = j := Fin.ext hId
  show (w.id.move σ).toNat = i
  rw [toNat_move hSound.length_le hLt, hFin, hj]

/-- A sound function stays sound. -/
theorem Sound.renumber (hSound : f.Sound) (hπ : Function.Injective π) :
    (f.renumber σ π).Sound := by
  have hSize := hSound.length_le
  refine ⟨fun i v => ids_renumber hSound, ?_, ?_, ?_, ?_, ?_, ?_, ?_⟩
  · intro v hv id hid
    obtain ⟨w, hw, rfl⟩ := mem_values_renumber hv
    obtain ⟨old, hOld, rfl⟩ := List.mem_map.mp hid
    exact hasValue_renumber hSize (hSound.args w hw old hOld)
  · -- different blocks keep different ids
    have hIds : (f.renumber σ π).blocks.map (·.id) = (f.blocks.map (·.id)).map π := by
      simp [Func.renumber, Block.rename, Function.comp_def]
    rw [hIds]
    exact hSound.blockIds.map hπ
  · intro b hb id hid
    obtain ⟨c, hc, rfl⟩ := List.mem_map.mp hb
    obtain ⟨old, hOld, rfl⟩ := List.mem_map.mp hid
    obtain ⟨v, hv, hOwner⟩ := hSound.entries c hc old hOld
    refine ⟨v.rename (.move σ) π, ?_, congrArg π hOwner⟩
    rw [value?_renumber hSize, hv, Option.map_some]
  · rw [flatMap_values_renumber]
    exact hSound.once.map (move_injective hSize)
  · intro b hb id hid
    obtain ⟨c, hc, rfl⟩ := List.mem_map.mp hb
    obtain ⟨old, hOld, rfl⟩ := Option.map_eq_some_iff.mp hid
    exact hasValue_renumber hSize (hSound.controls c hc old hOld)
  · intro b hb id hid
    obtain ⟨c, hc, rfl⟩ := List.mem_map.mp hb
    obtain ⟨old, hOld, rfl⟩ := List.mem_map.mp hid
    -- the successor is the renamed one of the block it was
    obtain ⟨target, hTarget, rfl⟩ := hSound.succs c hc old hOld
    exact ⟨_, List.mem_map.mpr ⟨target, hTarget, rfl⟩, rfl⟩
  · intro key hKey
    obtain ⟨id, hId, rfl⟩ := SlotTable.exists_of_mem_keys_rename hKey
    exact hasValue_renumber hSize (hSound.slots id hId)

/-! ## Lowering reads the same -/

end Func

/-- Blocks go with the blocks that they are renamed to. What gaps say of values
is left open. -/
def Naming.ofBlocks (π : BlockId → BlockId) : Naming where
  block id id' := id' = π id
  text _ _ := True

namespace Func

variable {f : Func} {σ : Equiv.Perm (Fin f.values.length)} {π : BlockId → BlockId}

/-- Values that are looked up before and after go together, as those that are found do. -/
theorem rel_value?_renumber {R : Value → Value → Prop} (hSize : f.values.length ≤ UInt32.size)
    (hR : ∀ v, R v (v.rename (.move σ) π)) (id : ValueId) :
    Option.Rel R (f.value? id) ((f.renumber σ π).value? (id.move σ)) := by
  rw [value?_renumber hSize]
  cases f.value? id with
  | none => exact .none
  | some v => exact .some (hR v)

theorem sameOperand_rename (hSize : f.values.length ≤ UInt32.size) (a : Value) :
    f.SameOperand (f.renumber σ π) a (a.rename (.move σ) π) :=
  ⟨rfl, rfl, (slot?_renumber hSize a.id).symm⟩

/-- Of a renamed value, lowering reads what it reads of the old one. -/
theorem readAlike_rename (hSize : f.values.length ≤ UInt32.size) (v : Value) :
    f.ReadAlike (.ofBlocks π) (f.renumber σ π) v (v.rename (.move σ) π) where
  op := rfl
  ty := rfl
  auxInt := rfl
  aux := rfl
  reg := rfl
  line := rfl
  slot := (slot?_renumber hSize v.id).symm
  args := by
    show List.Forall₂ _ v.args (v.args.map _)
    -- argument by argument, as each is moved by itself
    rw [List.forall₂_map_right_iff]
    exact List.forall₂_same.mpr fun id _ => rel_value?_renumber hSize (sameOperand_rename hSize) id
  text := trivial

/-- A value is the last of a renamed schedule exactly if it was the last. -/
theorem getLast?_rename_iff (hSize : f.values.length ≤ UInt32.size) (b : Block) (id : ValueId) :
    (b.rename (.move σ) π).values.getLast? = some (id.move σ) ↔
      b.values.getLast? = some id := by
  show (b.values.map (.move σ)).getLast? = some (id.move σ) ↔ _
  rw [List.getLast?_map, ← Option.map_some, (Option.map_injective (move_injective hSize)).eq_iff]

/-- A renamed block is left as the old one is, as an injective renaming keeps which block follows.
-/
theorem exitAlike_rename (hSize : f.values.length ≤ UInt32.size) (hπ : Function.Injective π)
    (b : Block) (next : Option BlockId) :
    f.ExitAlike (.ofBlocks π) (f.renumber σ π) b next (b.rename (.move σ) π) (next.map π) where
  kind := rfl
  line := rfl
  succs := by
    show List.Forall₂ _ b.succs (b.succs.map π)
    rw [List.forall₂_map_right_iff]
    refine List.forall₂_same.mpr fun t _ => ⟨rfl, ?_⟩
    -- a renamed block follows exactly where the block did
    rw [← Option.map_some, (Option.map_injective hπ).eq_iff]
  control := by
    show Option.Rel _ b.control (b.control.map _)
    cases b.control with
    | none => exact .none
    | some id =>
      refine .some ⟨?_, (getLast?_rename_iff hSize b id).symm⟩
      -- the owner of the control value is renamed as the block is
      exact rel_value?_renumber hSize (fun v => ⟨readAlike_rename hSize v, hπ.eq_iff.symm⟩) id

/-- A renamed block goes with the old one, step by step. -/
theorem blockAlike_rename (hSize : f.values.length ≤ UInt32.size) (hπ : Function.Injective π)
    (x : Block × Option BlockId) :
    f.BlockAlike (.ofBlocks π) (f.renumber σ π) x (x.1.rename (.move σ) π, x.2.map π) where
  id := rfl
  values := by
    -- the schedule keeps its order
    show List.Forall₂ _ x.1.values (x.1.values.map _)
    rw [List.forall₂_map_right_iff]
    exact List.forall₂_same.mpr fun id _ => rel_value?_renumber hSize (readAlike_rename hSize) id
  exit := exitAlike_rename hSize hπ x.1 x.2

/-- The layout stays, so each block is followed by the block that followed it. -/
theorem followed_rename (ρ : ValueId → ValueId) (bs : List Block) :
    followed (bs.map (.rename ρ π)) =
      (followed bs).map fun x => (x.1.rename ρ π, x.2.map π) := by
  induction bs with
  | nil => rfl
  | cons b bs ih =>
    rw [List.map_cons, followed, followed, List.map_cons, ih, List.head?_map, Option.map_map,
      Option.map_map]
    rfl

end Func

/-- The output with other ids of blocks. Its gaps are for the same reasons, but
describe values that have other names. -/
structure Output.RenamedBy (π : BlockId → BlockId) (out out' : Output) : Prop where
  name : out'.name = out.name
  code : out'.code = out.code
  branches : out'.branches = out.branches.map fun q => { q with target := π q.target }
  starts : out'.starts = out.starts.map fun s => { s with block := π s.block }
  gaps : out'.gaps.map (·.what) = out.gaps.map (·.what)

/-- Lists go together by a function exactly if one is the image of the other. -/
theorem eq_map_of_forall₂ {α β : Type} {φ : α → β} {xs : List α} {ys : List β}
    (h : List.Forall₂ (fun x y => y = φ x) xs ys) : ys = xs.map φ := by
  induction h with
  | nil => rfl
  | cons hxy _ ih => rw [hxy, ih, List.map_cons]

/-- Pieces that are the same but for the ids of blocks give outputs that are. -/
theorem Piece.Alike.renamedBy {π : BlockId → BlockId} {p q : Piece}
    (h : p.Alike (.ofBlocks π) q) (name : String) :
    (p.output name).RenamedBy π (q.output name) where
  name := rfl
  code := h.code.symm
  branches := by
    refine eq_map_of_forall₂ (h.branches.imp ?_)
    rintro ⟨i, t⟩ ⟨i', t'⟩ ⟨hIndex, hName⟩
    obtain rfl : i = i' := hIndex
    obtain rfl : t' = π t := hName
    rfl
  starts := by
    refine eq_map_of_forall₂ (h.starts.imp ?_)
    rintro ⟨b, i⟩ ⟨b', i'⟩ ⟨hIndex, hName⟩
    obtain rfl : i = i' := hIndex
    obtain rfl : b' = π b := hName
    rfl
  gaps := by
    -- descriptions name values, so of a gap only what is missing stays
    have hWhat : List.Forall₂ (fun (x y : Gap) => y.what = x.what) p.gaps q.gaps :=
      h.gaps.imp fun _ _ hGap => hGap.1.symm
    have hMapped := eq_map_of_forall₂ (List.forall₂_map_right_iff.mpr hWhat)
    exact hMapped

/-- **The numbers of values and the ids of blocks do not matter.** However a
function that is accepted is renumbered, it is accepted again, and it is lowered
as before: to the same code with the same marks, or with an error of the same
class. -/
theorem Func.renumber_lowers (f : Func) (σ : Equiv.Perm (Fin f.values.length))
    (π : BlockId → BlockId) (hCheck : f.check = .ok ()) (hπ : Function.Injective π) :
    (f.renumber σ π).check = .ok () ∧
    ∀ options,
      Parallel (Output.RenamedBy π) (f.lower options).result
        ((f.renumber σ π).lower options).result ∧
      ((f.renumber σ π).lower options).marks = (f.lower options).marks := by
  have hSound := Func.check_eq_ok_iff.mp hCheck
  refine ⟨Func.check_eq_ok_iff.mpr (hSound.renumber hπ), fun options => ?_⟩
  -- the layout stays, so each block goes with the one at its place
  have hLayout : List.Forall₂ (f.BlockAlike (.ofBlocks π) (f.renumber σ π)) (followed f.blocks)
      (followed (f.renumber σ π).blocks) := by
    rw [show (f.renumber σ π).blocks = f.blocks.map _ from rfl, followed_rename,
      List.forall₂_map_right_iff]
    exact List.forall₂_same.mpr fun x _ => blockAlike_rename hSound.length_le hπ x
  obtain ⟨hResult, hMarks⟩ := Func.lower_alike options hLayout
  refine ⟨?_, hMarks.symm⟩
  generalize (f.lower options).result = r, ((f.renumber σ π).lower options).result = r' at hResult
  -- both are lowered, or both fail with errors of one class
  cases hResult with
  | ok hPieces =>
    obtain ⟨p, q, hAlike, rfl, rfl⟩ := hPieces
    exact .ok (hAlike.renamedBy f.name)
  | error hClass => exact .error hClass

/-- The arena is reversed, and the blocks are numbered from 3. -/
theorem Func.renumber_lowers_max :
    Demo.max.check = .ok () ∧ Function.Injective (fun id : BlockId => id + 3) ∧
      (Demo.max.renumber Fin.revPerm (· + 3)).check = .ok () ∧
      ∃ out out', (Demo.max.lower {}).result = .ok out ∧
        ((Demo.max.renumber Fin.revPerm (· + 3)).lower {}).result = .ok out' ∧
        out.RenamedBy (· + 3) out' := by
  have hCheck : Demo.max.check = .ok () := rfl
  have hInjective : Function.Injective (fun id : BlockId => id + 3) :=
    fun _ _ h => (UInt32.add_left_inj 3).mp h
  obtain ⟨hAgain, hLower⟩ := Func.renumber_lowers Demo.max Fin.revPerm (· + 3) hCheck hInjective
  refine ⟨hCheck, hInjective, hAgain, ?_⟩
  -- the maximum is lowered, so its renumbering is
  have hResult := (hLower {}).1
  obtain ⟨out, hOut⟩ : ∃ out, (Demo.max.lower {}).result = .ok out := ⟨_, rfl⟩
  rw [hOut] at hResult
  generalize ((Demo.max.renumber Fin.revPerm (· + 3)).lower {}).result = r at hResult ⊢
  cases hResult with
  | ok hNames => exact ⟨out, _, hOut, rfl, hNames⟩

end RiscvLowering
