import Mathlib.Data.List.Forall2
import RiscvLowering.Command.Demo
import RiscvLowering.Proofs.Descriptions
import RiscvLowering.Proofs.Integrity

/-!
# Texts — what the text of a function tells

A function is printed in lines: a header with its name, and for each block a head
with the description of the block and then, further to the right, a line for each
entry of its schedule with the description of the value. So the indentation tells
where the entries of a block end, and the descriptions tell the rest.

A description begins with the id that the value records. That this is the id by
which the block schedules the value, and that there is such a value, is known of
functions that pass the check.

Main results:

* `blockAgrees_of_lines_eq` — the lines below the header tell the blocks one by one.
* `Func.text_eq_iff` — functions are printed alike exactly if they agree in what the
  text shows.
-/

namespace RiscvLowering

namespace Func

variable {f g : Func} {b : Block} {id id' : ValueId}

/-- The name of the function stays on its line, and the names of what its scheduled values refer to
are made of letters, digits, underscores and dots. -/
structure Legible (f : Func) : Prop where
  name : '\n' ∉ f.name.toList
  values : ∀ v ∈ f.scheduled, v.Named

/-- The id is that of a value in both functions, and the values agree in what a description shows. -/
def AgreesAt (f g : Func) (id : ValueId) : Prop :=
  ∃ v w, f.value? id = some v ∧ g.value? id = some w ∧ v.AgreesInText w

/-- The blocks agree in what is shown of them, and the functions in what is shown of their values. -/
structure BlockAgrees (f g : Func) (b c : Block) : Prop where
  described : b.AgreesInText c
  schedule : b.values = c.values
  entries : ∀ id ∈ b.values, f.AgreesAt g id

/-- The functions agree in what the text shows. It shows nothing of slots, of lines and of values
that no block schedules. -/
structure AgreesInText (f g : Func) : Prop where
  name : f.name = g.name
  blocks : List.Forall₂ (f.BlockAgrees g) f.blocks g.blocks

/-! ## Lines -/

/-- The line of a block, with its description. -/
def headLine (b : Block) : List Char := "  ".toList ++ (b.text.toList ++ [':'])

/-- The line of an entry, with the description of its value. -/
def entryLine (f : Func) (id : ValueId) : List Char :=
  "    ".toList ++ ((f.value? id).elim (id.name ++ " = <missing>") Value.text).toList

/-- The lines of a block and its schedule, each without its end. -/
def linesOf (f : Func) (b : Block) : List (List Char) := headLine b :: b.values.map f.entryLine

/-- The lines of a function. -/
def lines (f : Func) : List (List Char) :=
  ("func ".toList ++ f.name.toList) :: f.blocks.flatMap f.linesOf

theorem toList_blockLines (f : Func) (b : Block) :
    (f.blockLines b).toList = (f.linesOf b).flatMap (· ++ ['\n']) := by
  have hEntries : (String.join (b.values.map f.valueLine)).toList =
      (b.values.map f.entryLine).flatMap (· ++ ['\n']) := by
    simp [String.toList_join, List.flatMap_map, valueLine, entryLine]
  rw [blockLines, linesOf, List.flatMap_cons, ← hEntries]
  simp [headLine]

/-- The text of a function is its lines with an end of line behind each. -/
theorem toList_text (f : Func) : f.text.toList = f.lines.flatMap (· ++ ['\n']) := by
  have hBlocks : (String.join (f.blocks.map f.blockLines)).toList =
      (f.blocks.flatMap f.linesOf).flatMap (· ++ ['\n']) := by
    rw [String.toList_join, List.flatMap_map, List.flatMap_assoc]
    exact List.flatMap_congr fun b _ => f.toList_blockLines b
  rw [text, lines, List.flatMap_cons, ← hBlocks]
  simp

/-- The id stands for a value that records it and can be read off its description. -/
def Shows (f : Func) (id : ValueId) : Prop :=
  ∃ v, f.value? id = some v ∧ v.id = id ∧ v.Named

/-- What a sound and legible function schedules is shown under its own id. -/
theorem shows_of_mem (hSound : f.Sound) (hLegible : f.Legible) (hb : b ∈ f.blocks)
    (hId : id ∈ b.values) : f.Shows id := by
  obtain ⟨v, hv, -⟩ := hSound.entries b hb id hId
  exact ⟨v, hv, hSound.id_eq hv, hLegible.values v (mem_scheduled hb hId hv)⟩

/-- No line has the end of another in it. -/
theorem newline_not_mem_lines (hSound : f.Sound) (hLegible : f.Legible) :
    ∀ l ∈ f.lines, '\n' ∉ l := by
  have hHeader : '\n' ∉ "func ".toList ++ f.name.toList := by
    simp [hLegible.name]
  have hHead : ∀ b, '\n' ∉ headLine b := by
    intro b
    simp [headLine, b.newline_not_mem_text]
  have hEntry : ∀ b ∈ f.blocks, ∀ id ∈ b.values, '\n' ∉ f.entryLine id := by
    intro b hb id hId
    obtain ⟨v, hv, -, hNamed⟩ := shows_of_mem hSound hLegible hb hId
    simp [entryLine, hv, Value.newline_not_mem_text hNamed]
  intro l hl
  -- the header, the head of a block, or an entry of its schedule
  obtain rfl | hl := List.mem_cons.mp hl
  · exact hHeader
  · obtain ⟨b, hb, hl⟩ := List.mem_flatMap.mp hl
    obtain rfl | hl := List.mem_cons.mp hl
    · exact hHead b
    · obtain ⟨id, hId, rfl⟩ := List.mem_map.mp hl
      exact hEntry b hb id hId

/-! ## Reading the lines back -/

/-- The line of an entry tells its id and what is shown of its value. -/
theorem agreesAt_of_entryLine_eq (h : f.Shows id) (h' : g.Shows id')
    (hLine : f.entryLine id = g.entryLine id') : id = id' ∧ f.AgreesAt g id := by
  obtain ⟨v, hv, rfl, hNamed⟩ := h
  obtain ⟨w, hw, rfl, hNamed'⟩ := h'
  simp only [entryLine, hv, hw, Option.elim_some] at hLine
  -- both lines are indented alike
  have hText := String.toList_inj.mp (List.append_cancel_left hLine)
  have hAgrees := (Value.text_eq_iff hNamed hNamed').mp hText
  exact ⟨hAgrees.id, v, w, hv, hAgrees.id ▸ hw, hAgrees⟩

theorem agreesAt_of_entryLines_eq {ids ids' : List ValueId} (h : ∀ id ∈ ids, f.Shows id)
    (h' : ∀ id ∈ ids', g.Shows id) (hLines : ids.map f.entryLine = ids'.map g.entryLine) :
    ids = ids' ∧ ∀ id ∈ ids, f.AgreesAt g id := by
  induction ids generalizing ids' with
  | nil =>
    obtain rfl := List.map_eq_nil_iff.mp hLines.symm
    simp
  | cons id ids ih =>
    cases ids' with
    | nil => simp at hLines
    | cons id' ids' =>
      obtain ⟨hFirst, hRest⟩ := List.cons.inj hLines
      obtain ⟨hShows, hIds⟩ := List.forall_mem_cons.mp h
      obtain ⟨hShows', hIds'⟩ := List.forall_mem_cons.mp h'
      -- line by line
      obtain ⟨rfl, hAgrees⟩ := agreesAt_of_entryLine_eq hShows hShows' hFirst
      obtain ⟨rfl, hAll⟩ := ih hIds hIds' hRest
      exact ⟨rfl, List.forall_mem_cons.mpr ⟨hAgrees, hAll⟩⟩

/-- Entries are indented further than the heads of blocks, which have an id in the third place. -/
def isEntryLine (l : List Char) : Bool := l[2]? = some ' '

/-- Entries are printed further to the right than the heads of blocks. -/
theorem isEntryLine_of_mem (f : Func) (ids : List ValueId) :
    ∀ l ∈ ids.map f.entryLine, isEntryLine l = true := by
  intro l hl
  obtain ⟨id, -, rfl⟩ := List.mem_map.mp hl
  simp [isEntryLine, entryLine]

theorem isEntryLine_headLine (b : Block) : isEntryLine (headLine b) = false := by
  simp [isEntryLine, headLine, Block.toList_text, intercalate_cons_eq, BlockId.name]

/-- The head of a block tells what is shown of it. -/
theorem described_of_headLine_eq {c : Block} (h : headLine b = headLine c) : b.AgreesInText c := by
  have hText := List.append_cancel_right (List.append_cancel_left h)
  exact Block.text_eq_iff.mp (String.toList_inj.mp hText)

/-- What follows the entries of a block is the head of the next block, if there is one. -/
theorem isEntryLine_of_head? (f : Func) (bs : List Block) :
    ∀ l ∈ (bs.flatMap f.linesOf).head?, isEntryLine l = false := by
  intro l hl
  cases bs with
  | nil => cases hl
  | cons b bs =>
    obtain rfl := Option.some.inj hl
    exact isEntryLine_headLine b

/-- **The lines below the header tell the blocks**, each with its schedule. -/
theorem blockAgrees_of_lines_eq {bs cs : List Block} (h : ∀ b ∈ bs, ∀ id ∈ b.values, f.Shows id)
    (h' : ∀ c ∈ cs, ∀ id ∈ c.values, g.Shows id)
    (hLines : bs.flatMap f.linesOf = cs.flatMap g.linesOf) :
    List.Forall₂ (f.BlockAgrees g) bs cs := by
  induction bs generalizing cs with
  | nil =>
    cases cs with
    | nil => exact .nil
    | cons c cs => simp [linesOf] at hLines
  | cons b bs ih =>
    cases cs with
    | nil => simp [linesOf] at hLines
    | cons c cs =>
      obtain ⟨hShows, hBlocks⟩ := List.forall_mem_cons.mp h
      obtain ⟨hShows', hBlocks'⟩ := List.forall_mem_cons.mp h'
      obtain ⟨hHead, hLines⟩ := List.cons.inj hLines
      -- the entries of the first block end where the next head stands
      obtain ⟨hSchedule, hRest⟩ := append_injective_of_stops (f.isEntryLine_of_mem b.values)
        (g.isEntryLine_of_mem c.values) (f.isEntryLine_of_head? bs) (g.isEntryLine_of_head? cs) hLines
      obtain ⟨hValues, hAgrees⟩ := agreesAt_of_entryLines_eq hShows hShows' hSchedule
      exact .cons ⟨described_of_headLine_eq hHead, hValues, hAgrees⟩ (ih hBlocks hBlocks' hRest)

/-! ## Printed functions -/

theorem AgreesAt.entryLine_eq (h : f.AgreesAt g id) : f.entryLine id = g.entryLine id := by
  obtain ⟨v, w, hv, hw, hAgrees⟩ := h
  simp only [entryLine, hv, hw, Option.elim_some, hAgrees.text_eq]

theorem BlockAgrees.linesOf_eq {c : Block} (h : f.BlockAgrees g b c) :
    f.linesOf b = g.linesOf c := by
  have hHead : headLine b = headLine c := by
    rw [headLine, headLine, Block.text_eq_iff.mpr h.described]
  have hEntries : b.values.map f.entryLine = b.values.map g.entryLine :=
    List.map_congr_left fun id hId => (h.entries id hId).entryLine_eq
  rw [linesOf, linesOf, hHead, hEntries, h.schedule]

theorem AgreesInText.lines_eq (h : f.AgreesInText g) : f.lines = g.lines := by
  have hBlocks : ∀ {bs cs : List Block}, List.Forall₂ (f.BlockAgrees g) bs cs →
      bs.flatMap f.linesOf = cs.flatMap g.linesOf := by
    intro bs cs hAgree
    induction hAgree with
    | nil => rfl
    | cons hFirst _ ih => rw [List.flatMap_cons, List.flatMap_cons, hFirst.linesOf_eq, ih]
  rw [lines, lines, h.name, hBlocks h.blocks]

/-- **The text of a function tells what it shows**, if the function passes the check and its names
can be told from the marks of the text. -/
theorem text_eq_iff (hCheck : f.check = .ok ()) (hCheck' : g.check = .ok ()) (hLegible : f.Legible)
    (hLegible' : g.Legible) : f.text = g.text ↔ f.AgreesInText g := by
  have hSound := check_eq_ok_iff.mp hCheck
  have hSound' := check_eq_ok_iff.mp hCheck'
  constructor
  · intro h
    have hText := congrArg String.toList h
    rw [toList_text, toList_text] at hText
    -- no line holds an end of line, so these tell the lines
    have hLines := flatMap_append_injective (newline_not_mem_lines hSound hLegible)
      (newline_not_mem_lines hSound' hLegible') hText
    -- the header tells the name, and the lines below it the blocks
    obtain ⟨hHeader, hBlocks⟩ := List.cons.inj hLines
    exact ⟨String.toList_inj.mp (List.append_cancel_left hHeader),
      blockAgrees_of_lines_eq (fun b hb id => shows_of_mem hSound hLegible hb)
        (fun c hc id => shows_of_mem hSound' hLegible' hc) hBlocks⟩
  · intro h
    refine String.toList_inj.mp ?_
    rw [toList_text, toList_text, h.lines_eq]

end Func

/-- **Printed functions are unambiguous.** Functions that pass the check are printed alike exactly if
they have the same name and, in the same order, blocks with the same ids, kinds, control values,
successors and schedules, where each scheduled value has the same operation, type, arguments,
constant and register in both functions, and refers to nothing or to the same name. This asks of
names that they can be told from the marks of the text, as identifiers can. No two types have the
same text, and no two descriptions are the same because one of them leaves something out. -/
theorem texts_unambiguous :
    (∀ f g : Func, f.check = .ok () → g.check = .ok () → f.Legible → g.Legible →
      (f.text = g.text ↔ f.AgreesInText g)) ∧
    (∀ v w : Value, v.Named → w.Named → (v.text = w.text ↔ v.AgreesInText w)) ∧
    (∀ b c : Block, b.text = c.text ↔ b.AgreesInText c) ∧
    ∀ t u : Ty, t.text = u.text ↔ t = u :=
  ⟨fun _ _ => Func.text_eq_iff, fun _ _ => Value.text_eq_iff, fun _ _ => Block.text_eq_iff,
    fun _ _ => Ty.text_inj⟩

namespace Demo

open Builder in
/-- Compares the address of an entry with the base of its table. -/
def lookUp (aux : Aux) (line : Line) : Func := build "look up" do
  let entry ← block .branch
  let done ← block .ret
  let base ← value { block := entry, op := .sb, ty := .ptr, reg := some .gp }
  let addr ← value
    { block := entry, op := .movMem, ty := .ptr, args := [base], auxInt := -8, aux, line,
      reg := some .t0 }
  let same ← value { block := entry, op := .compare .eq, ty := .flags, args := [addr, base] }
  let _ ← value { block := done, op := .phi, ty := .int 4611686018427387904 true, args := [] }
  control entry same
  edge entry done
  edge entry done

def lookUpGlobal : Func := lookUp (.global "x.y") ⟨1⟩

def lookUpLocal : Func := lookUp (.auto { name := "x.y", varClass := .auto }) ⟨2⟩

/-- The address of a symbol, or of none. -/
def addressOf (aux : Aux) : Value :=
  { id := 1, op := .movMem, ty := .ptr, args := [0], aux, block := 0 }

end Demo

/-- A global and a local by the same name are printed alike, on whatever line. A reference to something
called `none` is not printed as no reference is. -/
theorem texts_unambiguous_lookUp :
    (Demo.lookUpGlobal.check = .ok () ∧ Demo.lookUpLocal.check = .ok () ∧
      Demo.lookUpGlobal.Legible ∧ Demo.lookUpLocal.Legible ∧
      Demo.lookUpGlobal ≠ Demo.lookUpLocal ∧ Demo.lookUpGlobal.text = Demo.lookUpLocal.text ∧
      Demo.lookUpGlobal.AgreesInText Demo.lookUpLocal) ∧
    ((Demo.addressOf .none).Named ∧ (Demo.addressOf (.global "none")).Named ∧
      Aux.text .none = Aux.text (.global "none") ∧
      (Demo.addressOf .none).text ≠ (Demo.addressOf (.global "none")).text) := by
  have hCheck : Demo.lookUpGlobal.check = .ok () := rfl
  have hCheck' : Demo.lookUpLocal.check = .ok () := rfl
  have hLegible : Demo.lookUpGlobal.Legible := ⟨by decide, by decide⟩
  have hLegible' : Demo.lookUpLocal.Legible := ⟨by decide, by decide⟩
  have hText : Demo.lookUpGlobal.text = Demo.lookUpLocal.text := by decide +kernel
  have hAgrees := (texts_unambiguous.1 _ _ hCheck hCheck' hLegible hLegible').mp hText
  have hDiffer : (Demo.addressOf .none).text ≠ (Demo.addressOf (.global "none")).text := by
    -- if the texts were the same, they would refer to the same
    intro h
    have hSame := (texts_unambiguous.2.1 _ _ (by decide) (by decide)).mp h
    exact absurd hSame.aux (by decide)
  exact ⟨⟨hCheck, hCheck', hLegible, hLegible', by decide, hText, hAgrees⟩, by decide, by decide,
    rfl, hDiffer⟩

end RiscvLowering
