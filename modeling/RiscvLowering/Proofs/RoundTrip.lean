import RiscvLowering.Proofs.Documents
import RiscvLowering.Proofs.FunctionTexts
import RiscvLowering.Ssa.Encode

/-!
# Round trip — functions are read back from their documents

What is written for a part of a function is one of the texts of that part, so what
is written for a function spells it. So a function is read back from its text, and
loading that text, or any other that spells the function, comes down to checking the
function.

Main results:

* `writes_ty`, `writes_aux`, `writes_slotTable` — choices and tables of slots.
* `writes_value`, `writes_block`, `writes_func` — the records of a function.
* `Func.load_pretty` — every function is read back from its text.
* `Func.load_spelled` — all texts that spell a function load the same.
-/

namespace RiscvLowering

open Json

/-! ## Scalars -/

/-- A number is written as its numeral. -/
theorem writes_number (n : Int) : Writes (NumberText n) (.number n) :=
  fun _ => rfl

/-- A truth value is written as its word. -/
theorem writes_bool (b : Bool) : Writes (BoolText b) (.bool b) :=
  fun _ => rfl

/-- A list of ids is written as an array of numbers. -/
theorem writes_ids (ids : List UInt32) : Writes (ListText IdText ids) (idsToJson ids) :=
  writes_list fun id => writes_number id.toNat

/-- A value that may be absent is written as its number or as null. -/
theorem writes_nullable {α : Type} (number : α → Int) (a : Option α) :
    Writes (NullableText (fun a => NumberText (number a)) a)
      (a.elim .null fun a => .number (number a)) := by
  cases a with
  | none => exact fun _ => rfl
  | some a => exact writes_number (number a)

/-! ## Types -/

/-- What a type tells besides its kind: its size. -/
theorem writes_sizedType (size : UInt64) :
    Writes (RecordText (sizedTypeTexts size)) (.object [("size", .number size.toNat)]) :=
  writes_record (describes_sizedType .float size).nodup (.cons ⟨rfl, writes_number _⟩ .nil)

/-- A type is written as its name, with its size where it has one. -/
theorem writes_ty (ty : Ty) : Writes ty.IsText ty.toJson := by
  -- a type with fields is written as a tag with its record, any other by its name
  cases ty with
  | int size signed =>
    exact writes_tagged "int" (writes_record (describes_intType size signed).nodup
      (.cons ⟨rfl, writes_number _⟩ (.cons ⟨rfl, writes_bool signed⟩ .nil)))
  | float size => exact writes_tagged "float" (writes_sizedType size)
  | aggregate size => exact writes_tagged "aggregate" (writes_sizedType size)
  | ptr | bool | mem | flags | void => exact writes_name _

/-! ## Frame variables, references and slots -/

/-- A frame variable is written with its three fields. -/
theorem writes_frameVar (v : FrameVar) : Writes v.IsText v.toJson :=
  writes_record (describes_frameVar v).nodup
    (.cons ⟨rfl, writes_string v.name⟩
      (.cons ⟨rfl, writes_name v.varClass.name⟩
        (.cons ⟨rfl, writes_number v.frameOffset.toInt⟩ .nil)))

/-- A reference is written as a choice, with what it refers to. -/
theorem writes_aux (aux : Aux) : Writes aux.IsText aux.toJson := by
  cases aux with
  | none => exact writes_name "none"
  | global name => exact writes_tagged "extern" (writes_string name)
  | arg v => exact writes_tagged "arg" (writes_frameVar v)
  | auto v => exact writes_tagged "auto" (writes_frameVar v)
  | var v => exact writes_tagged "var" (writes_frameVar v)

/-- A slot is written with its variable and its offset. -/
theorem writes_slot (s : Slot) : Writes s.IsText s.toJson :=
  writes_record (describes_slot s).nodup
    (.cons ⟨rfl, writes_frameVar s.var⟩ (.cons ⟨rfl, writes_number s.offset.toInt⟩ .nil))

/-- A table of slots is written as an object, with the ids of the values as keys. -/
theorem writes_slotTable (t : SlotTable) : Writes t.IsText t.toJson := by
  intro level
  refine ⟨t.entries, _, .refl _, ?_, encloses_object level _⟩
  -- the entries stand in the order of the table, so that nothing has to be permuted
  rw [List.map_map, List.forall₂_map_right_iff, List.forall₂_same]
  intro e _
  exact ⟨_, writes_slot e.2 (level + 1),
    member_memberChars (level + 1) (e.1.toNat.repr, e.2.toJson) rfl⟩

/-! ## Values, blocks and functions -/

/-- A value is written with its nine fields, in the order of their table. -/
theorem writes_value (v : Value) : Writes v.IsText v.toJson :=
  writes_record (describes_value v).nodup
    (.cons ⟨rfl, writes_number v.id.toNat⟩
      (.cons ⟨rfl, writes_name v.op.name⟩
        (.cons ⟨rfl, writes_ty v.ty⟩
          (.cons ⟨rfl, writes_ids v.args⟩
            (.cons ⟨rfl, writes_number v.auxInt.toInt⟩
              (.cons ⟨rfl, writes_aux v.aux⟩
                -- a register that is not assigned is written as null
                (.cons ⟨rfl, writes_nullable (fun r : Reg => r.number.val) v.reg⟩
                  (.cons ⟨rfl, writes_number v.block.toNat⟩
                    (.cons ⟨rfl, writes_number v.line.number.toNat⟩ .nil)))))))))

/-- A block is written with its six fields. -/
theorem writes_block (b : Block) : Writes b.IsText b.toJson :=
  writes_record (describes_block b).nodup
    (.cons ⟨rfl, writes_number b.id.toNat⟩
      (.cons ⟨rfl, writes_name b.kind.name⟩
        (.cons ⟨rfl, writes_ids b.values⟩
          (.cons ⟨rfl, writes_nullable (fun id : ValueId => id.toNat) b.control⟩
            (.cons ⟨rfl, writes_ids b.succs⟩
              (.cons ⟨rfl, writes_number b.line.number.toNat⟩ .nil))))))

/-- A function is written with its name, values, blocks and slots. -/
theorem writes_func (f : Func) : Writes (RecordText f.texts) f.toJson :=
  writes_record (describes_func f).nodup
    (.cons ⟨rfl, writes_string f.name⟩
      (.cons ⟨rfl, writes_list writes_value⟩
        (.cons ⟨rfl, writes_list writes_block⟩
          (.cons ⟨rfl, writes_slotTable f.slots⟩ .nil))))

/-! ## Whole texts -/

/-- The reader takes the value off the document, laid out at any level. -/
def Spells {α : Type} (read : Reader α) (a : α) (j : Json) : Prop :=
  Writes (Reads read a) j

/-- So a function is taken off what is written for it. -/
theorem spells_func (f : Func) : Spells funcRecord.read f f.toJson :=
  fun level => reads_record (describes_func f) (writes_func f level)

/-- What is written for a function spells it. -/
theorem Func.spelledBy_pretty (f : Func) : f.SpelledBy f.toJson.pretty :=
  ⟨[], _, [], blanks_nil, blanks_nil, writes_func f 0, by rw [List.append_nil]; rfl⟩

/-- **Every function is read back from its text**, and accepted exactly if it is sound. -/
theorem Func.load_pretty (f : Func) :
    Func.ofText f.toJson.pretty = .ok f ∧
      Func.load f.toJson.pretty =
        match f.check with
        | .ok () => .ok f
        | .error e => .error (.integrity e) := by
  have hText : Func.ofText f.toJson.pretty = .ok f := (spells_func f 0).readAll
  refine ⟨hText, ?_⟩
  -- what is read is the function itself, so loading is checking
  cases hCheck : f.check <;> simp only [Func.load, hText, hCheck]

/-- **All texts that spell a function are read as it**, and load as the text that is
written for it does. -/
theorem Func.load_spelled (f : Func) (text : String) (h : f.SpelledBy text) :
    Func.ofText text = .ok f ∧ Func.load text = Func.load f.toJson.pretty := by
  refine ⟨Func.ofText_spelled h, ?_⟩
  simp only [Func.load, Func.ofText_spelled h, Func.ofText_spelled f.spelledBy_pretty]

namespace Demo

def takenValue : Value := { id := 0, op := .arg, ty := .ptr, block := 0 }

def lastBlock : Block := { id := 0, kind := .ret }

/-- Takes an argument. -/
def taker : Func where
  name := "take"
  values := [takenValue]
  blocks := [lastBlock]

def braced (text : String) : String := "\x7b" ++ text ++ "\x7d"

/-- Spells it with its fields and those of its block in another order, the value as an
array, some choices as objects, and a field that a function does not have. -/
def takerText : String :=
  let block := braced ("\"kind\":" ++ braced "\"Ret\":null" ++ ", \"id\":0")
  let value := "[0, \"Arg\", " ++ braced "\"ptr\":null" ++ ", [], 0, \"none\", null, 0]"
  " " ++ braced ("\"blocks\":[" ++ block ++ "], \"note\":[], \"values\":[" ++ value ++
    "], \"name\":\"take\"")

/-- The other spelling is one by the grammar. -/
theorem taker_spelledBy : taker.SpelledBy takerText := by
  -- what stands between two tokens: nothing, a blank, or a comma and a blank
  have hNone : Blanks [] := blanks_nil
  have hBlank : Blanks [' '] := blanks_singleton rfl
  have hComma : Separates false ([] ++ ',' :: [' ']) := .comma hNone hBlank
  have hAlone : ∀ {frame text}, Encloses frame [text] _ := fun {_ _} =>
    ⟨_, rfl, .item (.first hNone) (.close hNone)⟩
  have hName : ∀ name, NameText name _ := fun name =>
    .inr ⟨_, _, rfl, .mk (quotes_quote name) hNone hNone, hAlone⟩
  -- from the inside: the block and the value, the field to be skipped, the function
  have hBlock : lastBlock.IsText _ :=
    .inl ⟨_, _, .known (.tail _ (.head _)) (by decide) (hName "Ret")
        (.mk (quotes_quote "kind") hNone hNone)
        (.known (.head _) (by decide) rfl (.mk (quotes_quote "id") hNone hNone) .nil),
      by simp [lastBlock, Block.texts], _, rfl,
      .item (.first hNone) (.item hComma (.close hNone))⟩
  have hValue : takenValue.IsText _ :=
    .inr ⟨8, _, .cons rfl (.cons (.inl (quotes_quote "Arg")) (.cons (hName "ptr")
        (.cons ⟨_, .nil, _, rfl, .close hNone⟩ (.cons rfl (.cons (.inl (quotes_quote "none"))
          (.cons rfl (.cons rfl .nil))))))), by simp [takenValue, Value.texts], _, rfl,
      .item (.first hNone) (.item hComma (.item hComma (.item hComma (.item hComma
        (.item hComma (.item hComma (.item hComma (.close hNone))))))))⟩
  have hNote : WellFormed _ := .array (fun _ h => absurd h List.not_mem_nil) ⟨_, rfl, .close hNone⟩
  have hFunc : RecordText taker.texts _ :=
    .inl ⟨_, _, .known (.tail _ (.tail _ (.head _))) (by decide) ⟨_, .cons hBlock .nil, hAlone⟩
        (.mk (quotes_quote "blocks") hNone hNone)
        (.unknown (by decide) hNote (.mk (quotes_quote "note") hNone hNone)
          (.known (.tail _ (.head _)) (by decide) ⟨_, .cons hValue .nil, hAlone⟩
            (.mk (quotes_quote "values") hNone hNone)
            (.known (.head _) (by decide) (quotes_quote "take")
              (.mk (quotes_quote "name") hNone hNone) .nil))),
      by simp [Func.texts, taker], _, rfl, .item (.first hNone)
      (.item hComma (.item hComma (.item hComma (.close hNone))))⟩
  exact ⟨[' '], _, [], hBlank, hNone, hFunc, by decide +kernel⟩

end Demo

/-- The other spelling is read as the function, and loads as its own text does. -/
theorem Func.load_spelled_taker :
    Func.ofText Demo.takerText = .ok Demo.taker ∧
      Func.load Demo.takerText = Func.load Demo.taker.toJson.pretty :=
  Func.load_spelled Demo.taker Demo.takerText Demo.taker_spelledBy

end RiscvLowering
