import RiscvLowering.Ssa.Id

/-!
# Frame variables and stack slots

A spilled value lives in a slot of a frame variable. The slots of a function form a table that is
kept in ascending order of value, with one slot for a value, so that two tables with the same
contents are equal and every walk over a table has one order.
-/

namespace RiscvLowering

/-- What a frame variable is for. -/
inductive VarClass where
  /-- An argument. -/
  | param
  /-- A result. -/
  | paramOut
  /-- A local. -/
  | auto
deriving DecidableEq

namespace VarClass

/-- Arguments and results lie in the caller's frame. -/
def isParam : VarClass → Bool
  | param | paramOut => true
  | auto => false

/-- The name of a class in documents. -/
def name : VarClass → String
  | param => "Param"
  | paramOut => "ParamOut"
  | auto => "Auto"

def ofName? (s : String) : Option VarClass := [param, paramOut, auto].find? (·.name = s)

end VarClass

structure FrameVar where
  name : String
  varClass : VarClass
  /-- The place of an argument in the area of arguments. -/
  frameOffset : Int64 := 0
deriving DecidableEq

/-- The place of a spilled value. -/
structure Slot where
  var : FrameVar
  /-- The offset within the variable. -/
  offset : Int64 := 0
deriving DecidableEq

/-- The slots of a function by value, in ascending order. -/
structure SlotTable where
  entries : List (ValueId × Slot)
  ascending : entries.Pairwise (·.1 < ·.1)
deriving DecidableEq

namespace SlotTable

def empty : SlotTable := ⟨[], .nil⟩

instance : Inhabited SlotTable := ⟨empty⟩

/-- Puts a slot at its place; an older slot of the same value goes. -/
def insertEntry (id : ValueId) (slot : Slot) : List (ValueId × Slot) → List (ValueId × Slot)
  | [] => [(id, slot)]
  | e :: es =>
    if id < e.1 then (id, slot) :: e :: es
    else if id = e.1 then (id, slot) :: es
    else e :: insertEntry id slot es

/-- What an insertion leaves is the new entry and what was there. -/
theorem mem_insertEntry {id : ValueId} {slot : Slot} {es : List (ValueId × Slot)}
    {x : ValueId × Slot} (h : x ∈ insertEntry id slot es) : x = (id, slot) ∨ x ∈ es := by
  induction es with
  -- by the entries, which are passed until the place of the new one
  | nil => simpa [insertEntry] using h
  | cons e es ih =>
    rw [insertEntry] at h
    split at h
    · simpa using h
    · split at h
      · simp only [List.mem_cons] at h ⊢
        exact h.imp_right .inr
      · simp only [List.mem_cons] at h ⊢
        rcases h with h | h
        · exact .inr (.inl h)
        · exact (ih h).imp_right .inr

/-- An insertion keeps the entries in ascending order, none of them twice. -/
theorem pairwise_insertEntry {id : ValueId} {slot : Slot} {es : List (ValueId × Slot)}
    (h : es.Pairwise (·.1 < ·.1)) : (insertEntry id slot es).Pairwise (·.1 < ·.1) := by
  induction es with
  | nil => simp [insertEntry]
  | cons e es ih =>
    obtain ⟨he, hes⟩ := List.pairwise_cons.1 h
    rw [insertEntry]
    split
    · -- it goes in front, so below all that come after the first
      rename_i hlt
      refine List.pairwise_cons.2 ⟨fun x hx => ?_, h⟩
      rcases List.mem_cons.1 hx with rfl | hx
      · exact hlt
      · exact UInt32.lt_trans hlt (he x hx)
    · split
      · -- it takes the place of one with the same key
        rename_i heq
        exact List.pairwise_cons.2 ⟨fun x hx => heq ▸ he x hx, hes⟩
      · -- it goes further back, so the first stays below all others
        rename_i hlt heq
        refine List.pairwise_cons.2 ⟨fun x hx => ?_, ih hes⟩
        rcases mem_insertEntry hx with rfl | hx
        · exact UInt32.lt_of_le_of_ne (UInt32.not_lt.1 hlt) (Ne.symm heq)
        · exact he x hx

/-- The table with one slot put in, in place of an older slot of the same value. -/
def insert (t : SlotTable) (id : ValueId) (slot : Slot) : SlotTable :=
  ⟨insertEntry id slot t.entries, pairwise_insertEntry t.ascending⟩

/-- The slot of a value. -/
def get? (t : SlotTable) (id : ValueId) : Option Slot :=
  (t.entries.find? (·.1 = id)).map (·.2)

/-- The entry that is found for an id after an insertion. -/
theorem find?_insertEntry (id : ValueId) (slot : Slot) (key : ValueId)
    {es : List (ValueId × Slot)} (h : es.Pairwise (·.1 < ·.1)) :
    (insertEntry id slot es).find? (·.1 = key) =
      if key = id then some (id, slot) else es.find? (·.1 = key) := by
  induction es with
  | nil => by_cases hk : key = id <;> simp [insertEntry, hk, Ne.symm]
  | cons e es ih =>
    obtain ⟨he, hes⟩ := List.pairwise_cons.1 h
    rw [insertEntry]
    split
    · -- before all that are left: the new entry stands in front
      by_cases hk : key = id
      · simp [hk]
      · simp [List.find?_cons, hk, Ne.symm hk]
    · split
      · rename_i heq
        by_cases hk : key = id
        · simp [hk]
        · simp [hk, Ne.symm hk, ← heq]
      · rename_i heq
        rw [List.find?_cons, List.find?_cons, ih hes]
        by_cases hk : key = id
        · simp [hk, Ne.symm heq]
        · simp [hk]

/-- A table holds what was put in last, and what it held of all other values. -/
@[simp]
theorem get?_insert (t : SlotTable) (id : ValueId) (slot : Slot) (key : ValueId) :
    (t.insert id slot).get? key = if key = id then some slot else t.get? key := by
  rw [get?, insert, find?_insertEntry id slot key t.ascending, get?]
  split <;> rfl

/-- The values that have a slot, in ascending order. -/
def keys (t : SlotTable) : List ValueId := t.entries.map (·.1)

end SlotTable

end RiscvLowering
