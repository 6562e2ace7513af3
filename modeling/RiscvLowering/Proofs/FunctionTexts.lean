import RiscvLowering.Proofs.Spellings
import RiscvLowering.Ssa.Decode

/-!
# Texts of functions — whatever spells a function loads as it

The texts of a function, record by record: which fields a record has, what texts
the value of each has, and which may be left out. At every level each record is an
object or an array, with its fields in any order, with or without defaults and with
unknown fields among them; each choice without data is a name or an object; the
slots stand in any order; and blanks may stand between any two tokens.

Main results:

* `describes_value`, `describes_block`, `describes_func` — the fields of the records.
* `reads_ty`, `reads_aux`, `reads_slots` — types, references and tables of slots.
* `Func.ofText_spelled` — every text that spells a function is read as it.
-/

namespace RiscvLowering

open Json

/-! ## Fields and drafts -/

namespace Json

/-- What a draft has of a field, by the names of the fields that it has. -/
def pick {β : Type} (names : List String) (name : String) (b : β) : Option β :=
  if name ∈ names then some b else none

variable {β δ : Type} {names : List String} {name : String} {b default : β}

/-- A field that has to be given is there once it is named. -/
theorem required_pick (h : name ∈ names ∨ False) : required name (pick names name b) = .ok b := by
  rw [pick, if_pos (h.resolve_right id)]
  rfl

/-- A field that a draft lacks gets its default, which then is its value. -/
theorem getD_pick (h : name ∈ names ∨ b = default) : (pick names name b).getD default = b := by
  rw [pick]
  split
  · rfl
  · rename_i hNot
    exact (h.resolve_left hNot).symm

/-- A field that is kept at a place of its own is read into the drafts if its value is. -/
theorem fieldReads_kept {draft : List String → δ} {get : δ → Option β} {set : δ → β → δ}
    {read : Reader β} {IsText : List Char → Prop} {IsDefault : Prop}
    (hGet : ∀ names, get (draft names) = pick names name b)
    (hSet : ∀ names, set (draft names) b = draft (name :: names))
    (hRead : ∀ cs, IsText cs → Reads read b cs) :
    FieldReads draft (.kept name get set read) ⟨name, IsText, IsDefault⟩ where
  name := rfl
  lacks names hNot := by
    show (get (draft names)).isSome = false
    rw [hGet, pick, if_neg hNot]
    rfl
  reads names _ cs hText := by
    rw [← hSet]
    exact (hRead cs hText).map (set (draft names))

end Json

/-! ## Types -/

theorem reads_number_uint64 {n : UInt64} {cs : List Char} (h : NumberText n.toNat cs) :
    Reads readUInt64 n cs :=
  h ▸ reads_uint64 n

theorem reads_number_uint32 {n : UInt32} {cs : List Char} (h : NumberText n.toNat cs) :
    Reads readUInt32 n cs :=
  h ▸ reads_uint32 n

theorem reads_number_int64 {n : Int64} {cs : List Char} (h : NumberText n.toInt cs) :
    Reads readInt64 n cs :=
  h ▸ reads_int64 n

/-- The fields of an integer type. -/
def intTypeTexts (size : UInt64) (signed : Bool) : List FieldText :=
  [⟨"size", NumberText size.toNat, False⟩, ⟨"signed", BoolText signed, False⟩]

/-- The fields of a type of a size alone. -/
def sizedTypeTexts (size : UInt64) : List FieldText :=
  [⟨"size", NumberText size.toNat, False⟩]

/-- The texts of a type: the sized ones are tagged records, the others names. -/
def Ty.IsText : Ty → List Char → Prop
  | int size signed => TaggedText "int" (RecordText (intTypeTexts size signed))
  | ptr => NameText "ptr"
  | bool => NameText "bool"
  | float size => TaggedText "float" (RecordText (sizedTypeTexts size))
  | mem => NameText "mem"
  | flags => NameText "flags"
  | aggregate size => TaggedText "aggregate" (RecordText (sizedTypeTexts size))
  | void => NameText "void"

def intTypeDraft (size : UInt64) (signed : Bool) (names : List String) : IntTypeDraft where
  size := pick names "size" size
  signed := pick names "signed" signed

/-- Both fields of an integer type have to be given. -/
theorem describes_intType (size : UInt64) (signed : Bool) :
    Describes intTypeRecord (intTypeDraft size signed) (.int size signed)
      (intTypeTexts size signed) where
  names := by decide
  blank := rfl
  fields := by
    -- what is left of each field: to set it is to add its name to those that are given
    refine .cons (fieldReads_kept (fun _ => rfl) ?_ fun _ => reads_number_uint64)
      (.cons (fieldReads_kept (fun _ => rfl) ?_ fun _ => reads_boolText) .nil)
    · intro names
      simp [intTypeDraft, pick]
    · intro names
      simp [intTypeDraft, pick]
  complete names h := by
    simp only [intTypeTexts, List.forall_mem_cons] at h
    obtain ⟨hSize, hSigned, -⟩ := h
    simp only [intTypeRecord, intTypeDraft, required_pick hSize, required_pick hSigned, ok_bind]
    rfl

def sizedTypeDraft (size : UInt64) (names : List String) : Option UInt64 :=
  pick names "size" size

/-- The size of a sized type has to be given, whatever type is made of it. -/
theorem describes_sizedType (make : UInt64 → Ty) (size : UInt64) :
    Describes (sizedTypeRecord make) (sizedTypeDraft size) (make size) (sizedTypeTexts size) where
  names := List.nodup_singleton _
  blank := rfl
  fields := by
    refine .cons (fieldReads_kept (fun _ => rfl) ?_ fun _ => reads_number_uint64) .nil
    intro names
    simp [sizedTypeDraft, pick]
  complete names h := by
    simp only [sizedTypeTexts, List.forall_mem_cons] at h
    simp only [sizedTypeRecord, sizedTypeDraft, required_pick h.1, ok_bind]
    rfl

/-- Each type is read from its texts. -/
theorem reads_ty {ty : Ty} {cs : List Char} (h : ty.IsText cs) : Reads Ty.read ty cs := by
  cases ty with
  | int size signed =>
    -- the sized types carry a record behind their tag
    exact reads_taggedText rfl (fun _ => reads_record (describes_intType size signed)) h
  | float size =>
    exact reads_taggedText rfl (fun _ => reads_record (describes_sizedType .float size)) h
  | aggregate size =>
    exact reads_taggedText rfl (fun _ => reads_record (describes_sizedType .aggregate size)) h
  | ptr | bool | mem | flags | void => exact reads_nameText rfl h

/-! ## Frame variables, references and slots -/

/-- The fields of a frame variable; the offset may be left out where it is 0. -/
def FrameVar.texts (v : FrameVar) : List FieldText :=
  [⟨"name", Quotes v.name, False⟩, ⟨"class", NameText v.varClass.name, False⟩,
    ⟨"frame_offset", NumberText v.frameOffset.toInt, v.frameOffset = 0⟩]

def FrameVar.IsText (v : FrameVar) : List Char → Prop := RecordText v.texts

def FrameVar.draft (v : FrameVar) (names : List String) : FrameVarDraft where
  name := pick names "name" v.name
  varClass := pick names "class" v.varClass
  frameOffset := pick names "frame_offset" v.frameOffset

theorem reads_varClass {c : VarClass} {cs : List Char} (h : NameText c.name cs) :
    Reads (readChoice (bareNames VarClass.ofName?)) c cs :=
  reads_nameText (by cases c <;> rfl) h

/-- A frame variable without an offset is one at offset 0. -/
theorem describes_frameVar (v : FrameVar) : Describes frameVarRecord v.draft v v.texts where
  names := by decide
  blank := rfl
  fields := by
    refine .cons (fieldReads_kept (fun _ => rfl) ?_ fun _ => reads_quotes)
      (.cons (fieldReads_kept (fun _ => rfl) ?_ fun _ => reads_varClass)
        (.cons (fieldReads_kept (fun _ => rfl) ?_ fun _ => reads_number_int64) .nil))
    all_goals
      intro names
      simp [FrameVar.draft, pick]
  complete names h := by
    simp only [FrameVar.texts, List.forall_mem_cons] at h
    -- of a field that may be left out, either the name is given or the value is the default
    obtain ⟨hName, hClass, hOffset, -⟩ := h
    simp only [frameVarRecord, FrameVar.draft, required_pick hName, required_pick hClass,
      getD_pick hOffset, ok_bind]
    rfl

theorem reads_frameVar {v : FrameVar} {cs : List Char} (h : v.IsText cs) :
    Reads frameVarRecord.read v cs :=
  reads_record (describes_frameVar v) h

def Aux.IsText : Aux → List Char → Prop
  | none => NameText "none"
  | global name => TaggedText "extern" (Quotes name)
  | arg v => TaggedText "arg" v.IsText
  | auto v => TaggedText "auto" v.IsText
  | var v => TaggedText "var" v.IsText

/-- Each reference is read from its texts, be it a name alone or tagged with what it refers to. -/
theorem reads_aux {aux : Aux} {cs : List Char} (h : aux.IsText cs) : Reads Aux.read aux cs := by
  cases aux with
  | none => exact reads_nameText rfl h
  | global name => exact reads_taggedText rfl (fun _ hData => (reads_quotes hData).map Aux.global) h
  | arg v => exact reads_taggedText rfl (fun _ hData => (reads_frameVar hData).map Aux.arg) h
  | auto v => exact reads_taggedText rfl (fun _ hData => (reads_frameVar hData).map Aux.auto) h
  | var v => exact reads_taggedText rfl (fun _ hData => (reads_frameVar hData).map Aux.var) h

/-- The fields of a slot; the offset may be left out where it is 0. -/
def Slot.texts (s : Slot) : List FieldText :=
  [⟨"var", s.var.IsText, False⟩, ⟨"offset", NumberText s.offset.toInt, s.offset = 0⟩]

def Slot.IsText (s : Slot) : List Char → Prop := RecordText s.texts

def Slot.draft (s : Slot) (names : List String) : SlotDraft where
  var := pick names "var" s.var
  offset := pick names "offset" s.offset

/-- A slot without an offset is one at offset 0. -/
theorem describes_slot (s : Slot) : Describes slotRecord s.draft s s.texts where
  names := by decide
  blank := rfl
  fields := by
    refine .cons (fieldReads_kept (fun _ => rfl) ?_ fun _ => reads_frameVar)
      (.cons (fieldReads_kept (fun _ => rfl) ?_ fun _ => reads_number_int64) .nil)
    all_goals
      intro names
      simp [Slot.draft, pick]
  complete names h := by
    simp only [Slot.texts, List.forall_mem_cons] at h
    obtain ⟨hVar, hOffset, -⟩ := h
    simp only [slotRecord, Slot.draft, required_pick hVar, getD_pick hOffset, ok_bind]
    rfl

/-! ## Tables of slots -/

/-- The text of an entry: the number of the value in quotes, and the slot. -/
def SlotTable.IsEntryText (e : ValueId × Slot) (cs : List Char) : Prop :=
  ∃ slot, e.2.IsText slot ∧ Member (· = quote e.1.toNat.repr) slot cs

/-- The texts of a table: its entries in any order. -/
def SlotTable.IsText (t : SlotTable) (cs : List Char) : Prop :=
  ∃ entries texts, entries.Perm t.entries ∧ List.Forall₂ IsEntryText entries texts ∧
    Encloses .object texts cs

namespace SlotTable

/-- A table is its entries, as that the keys ascend is a proposition. -/
theorem eq_of_entries {t t' : SlotTable} (h : t.entries = t'.entries) : t = t' := by
  cases t
  cases t'
  subst h
  rfl

/-- An entry of another value is added to the others. -/
theorem insertEntry_perm {id : ValueId} {slot : Slot} {es : List (ValueId × Slot)}
    (h : id ∉ es.map (·.1)) : (insertEntry id slot es).Perm ((id, slot) :: es) := by
  induction es with
  | nil => exact .refl _
  | cons e es ih =>
    rw [List.map_cons, List.mem_cons, not_or] at h
    rw [insertEntry]
    -- the entry stands here, or behind the first
    split
    · exact .refl _
    · rw [if_neg h.1]
      exact ((ih h.2).cons e).trans (.swap _ _ _)

/-- The table with the entries put in, one after the other. -/
def insertAll (t : SlotTable) : List (ValueId × Slot) → SlotTable
  | [] => t
  | e :: es => (t.insert e.1 e.2).insertAll es

/-- Entries of different values are all kept. -/
theorem insertAll_perm {t : SlotTable} {es : List (ValueId × Slot)}
    (h : ((t.entries ++ es).map (·.1)).Nodup) :
    (t.insertAll es).entries.Perm (t.entries ++ es) := by
  induction es generalizing t with
  | nil => rw [List.append_nil, insertAll]
  | cons e es ih =>
    -- the next entry is one of another value than those put in
    have hMoved : (t.entries ++ e :: es).Perm (e :: (t.entries ++ es)) := List.perm_middle
    have hDistinct := (hMoved.map (·.1)).nodup_iff.mp h
    rw [List.map_cons, List.nodup_cons] at hDistinct
    have hNew : e.1 ∉ t.entries.map (·.1) := fun hIn =>
      hDistinct.1 (by rw [List.map_append]; exact List.mem_append_left _ hIn)
    have hInsert : ((t.insert e.1 e.2).entries ++ es).Perm (t.entries ++ e :: es) :=
      ((insertEntry_perm hNew).append_right es).trans hMoved.symm
    exact (ih ((hInsert.map (·.1)).nodup_iff.mpr h)).trans hInsert

/-- Two tables with the same entries are equal, as both are in ascending order. -/
theorem eq_of_perm {t t' : SlotTable} (h : t.entries.Perm t'.entries) : t = t' := by
  -- of two entries only one way round is in ascending order
  refine eq_of_entries (h.eq_of_pairwise ?_ t.ascending t'.ascending)
  exact fun e e' _ _ hLt hGt => absurd hGt (UInt32.lt_asymm hLt)

theorem insertAll_empty {t : SlotTable} {es : List (ValueId × Slot)} (h : es.Perm t.entries) :
    SlotTable.empty.insertAll es = t := by
  -- the keys ascend in the table, so they differ in any order
  have hNodup : (t.entries.map (·.1)).Nodup :=
    List.pairwise_map.mpr (t.ascending.imp UInt32.ne_of_lt)
  exact eq_of_perm ((insertAll_perm ((h.map (·.1)).nodup_iff.mpr hNodup)).trans h)

end SlotTable

/-- A number in quotes is read back as a key. -/
theorem readIdKey_quote (id : ValueId) (rest : List Char) :
    literal ['"'] (quote id.toNat.repr ++ rest) = .ok (id.toNat.repr.toList ++ '"' :: rest) ∧
      readIdKey (id.toNat.repr.toList ++ '"' :: rest) = .ok (id, rest) := by
  -- digits need no escape, so a key is a numeral between quotes
  have hDigits : ∀ c ∈ id.toNat.repr.toList, c.isDigit = true := by
    rw [Nat.toList_repr]
    exact Numeral.isDigit_toDigits
  constructor
  · rw [quote_append, flatMap_escape_digits hDigits]
    exact literal_append ['"'] _
  · have hRead := (reads_uint32 id).reads [] ('"' :: rest) blanks_nil (fence_cons (by decide))
    obtain ⟨c, tl, hText, hFirst⟩ := repr_eq_cons id.toNat
    have hSame : id.toNat.repr.toList = c :: tl := hText
    rw [hText, List.nil_append, List.cons_append] at hRead
    rw [hSame, List.cons_append, readIdKey]
    simp only [if_pos hFirst, hRead, ok_bind]
    rfl

section Slots

variable {fuel : Nat} {first : Bool} {t : SlotTable} {ws sep cs rest : List Char}

/-- Where the bracket closes, the table is what it is. -/
theorem readSlots_close (hBlanks : Blanks ws) :
    readSlots (fuel + 1) first t (ws ++ '}' :: rest) = .ok (t, rest) := by
  have hNext : nextMember .object first (ws ++ '}' :: rest) = .ok (.closed rest) :=
    nextMember_close hBlanks
  rw [readSlots, hNext]
  rfl

/-- One slot is read and inserted, and then those behind it. -/
theorem readSlots_member {id : ValueId} {slot : Slot} {ws' : List Char}
    {result : Except Fault (SlotTable × List Char)} (hSep : Separates first sep)
    (hBlanks : Blanks ws) (hBlanks' : Blanks ws') (hRead : Reads slotRecord.read slot cs)
    (hFence : Fence rest) (hRest : readSlots fuel false (t.insert id slot) rest = result) :
    readSlots (fuel + 1) first t
      (sep ++ (quote id.toNat.repr ++ (ws ++ ':' :: (ws' ++ (cs ++ rest))))) = result := by
  -- the key is read before its slot, and the slot is put in before the rest is read
  obtain ⟨hQuote, hKey⟩ := readIdKey_quote id (ws ++ ':' :: (ws' ++ (cs ++ rest)))
  have hColon : punctuation ':' (ws ++ ':' :: (ws' ++ (cs ++ rest))) = .ok _ :=
    punctuation_blanks hBlanks (by decide)
  rw [readSlots, nextMember_member hSep (opens_quote _)]
  simp only [ok_bind, hQuote, hKey, hColon, hRead.reads ws' rest hBlanks' hFence]
  exact hRest

end Slots

/-- What is left of a table is read entry by entry. -/
theorem readSlots_items {first : Bool} {entries : List (ValueId × Slot)}
    {texts : List (List Char)} {body : List Char} (hItems : Items .object first texts body)
    (hEntries : List.Forall₂ SlotTable.IsEntryText entries texts) {t : SlotTable} {fuel : Nat}
    (hFuel : texts.length < fuel) (rest : List Char) :
    readSlots fuel first t (body ++ rest) = .ok (t.insertAll entries, rest) := by
  obtain ⟨fuel, rfl⟩ := Nat.exists_eq_add_one_of_ne_zero (Nat.ne_zero_of_lt hFuel)
  -- by the entries still to come; those that came are in `t`
  induction hItems generalizing entries t fuel with
  | close hBlanks =>
    cases hEntries
    rw [List.append_assoc]
    exact readSlots_close hBlanks
  | @item first sep text body texts hSep hRest ih =>
    cases hEntries with
    | @cons e _ entries _ hFirst hOthers =>
      simp only [List.length_cons, Nat.add_lt_add_iff_right] at hFuel
      obtain ⟨fuel, rfl⟩ := Nat.exists_eq_add_one_of_ne_zero (Nat.ne_zero_of_lt hFuel)
      obtain ⟨slot, hSlot, hMember⟩ := hFirst
      -- the key is a number in quotes, without blanks or escapes between them
      cases hMember with
      | @mk name ws ws' hKey hBlanks hBlanks' =>
        subst hKey
        have hRead := reads_record (describes_slot e.2) hSlot
        have hMember : readSlots (fuel + 1 + 1) first t (sep ++ (quote e.1.toNat.repr ++
            (ws ++ ':' :: (ws' ++ (slot ++ (body ++ rest)))))) =
              .ok ((t.insert e.1 e.2).insertAll entries, rest) :=
          readSlots_member hSep hBlanks hBlanks' hRead (hRest.fence rest) (ih hOthers fuel hFuel)
        simpa only [List.append_assoc, List.cons_append, SlotTable.insertAll] using hMember

/-- **A table of slots is read off each of its texts.** -/
theorem reads_slots {t : SlotTable} {cs : List Char} (h : t.IsText cs) :
    Reads SlotTable.read t cs := by
  obtain ⟨entries, texts, hPerm, hEntries, hEncloses⟩ := h
  refine reads_of_encloses hEncloses fun whole body rest hSkip hItems hFuel => ?_
  change skipBlanks whole = '{' :: (body ++ rest) at hSkip
  rw [SlotTable.read, hSkip, ← SlotTable.insertAll_empty hPerm]
  exact readSlots_items hItems hEntries hFuel rest

/-! ## Values, blocks and functions -/

theorem reads_line {l : Line} {cs : List Char} (h : NumberText l.number.toNat cs) :
    Reads Line.read l cs :=
  (reads_number_uint32 h).map Line.mk

def IdText (id : UInt32) : List Char → Prop := NumberText id.toNat

theorem reads_ids {ids : List UInt32} {cs : List Char} (h : ListText IdText ids cs) :
    Reads (readList readUInt32) ids cs :=
  reads_list (fun _ _ => reads_number_uint32) h

/-- A value that is read where null is allowed has no text that is taken for null. -/
theorem reads_nullableText {α : Type} {read : Reader α} {number : α → Int}
    (hRead : ∀ a cs, NumberText (number a) cs → Reads read a cs) {a : Option α} {cs : List Char}
    (h : NullableText (fun a => NumberText (number a)) a cs) : Reads (readNullable read) a cs := by
  cases a with
  | none => exact h ▸ reads_null
  | some a =>
    refine (hRead a cs h).nullable ?_
    rw [show cs = _ from h]
    exact head?_repr_ne _

/-- Operations are read from their names, as no two have the same. -/
theorem reads_op {op : Op} {cs : List Char} (h : NameText op.name cs) :
    Reads (readChoice (bareNames Op.ofName?)) op cs := by
  have hName : Op.ofName? op.name = some op := find?_key Op.name_nodup (Op.mem_all op)
  exact reads_nameText (by rw [bareNames, hName]; rfl) h

theorem reads_blockKind {kind : BlockKind} {cs : List Char} (h : NameText kind.name cs) :
    Reads (readChoice (bareNames BlockKind.ofName?)) kind cs := by
  have hName : BlockKind.ofName? kind.name = some kind :=
    find?_key BlockKind.name_nodup (BlockKind.mem_all kind)
  exact reads_nameText (by rw [bareNames, hName]; rfl) h

/-- The fields of a value; four of them have to be given, the others have defaults. -/
def Value.texts (v : Value) : List FieldText :=
  [⟨"id", IdText v.id, False⟩, ⟨"op", NameText v.op.name, False⟩, ⟨"type", v.ty.IsText, False⟩,
    ⟨"args", ListText IdText v.args, v.args = []⟩,
    ⟨"aux_int", NumberText v.auxInt.toInt, v.auxInt = 0⟩,
    ⟨"aux", v.aux.IsText, v.aux = .none⟩,
    ⟨"reg", NullableText (fun r => NumberText r.number.val) v.reg, v.reg = none⟩,
    ⟨"block", IdText v.block, False⟩,
    ⟨"pos", NumberText v.line.number.toNat, v.line = .unknown⟩]

def Value.IsText (v : Value) : List Char → Prop := RecordText v.texts

def Value.draft (v : Value) (names : List String) : ValueDraft where
  id := pick names "id" v.id
  op := pick names "op" v.op
  ty := pick names "type" v.ty
  args := pick names "args" v.args
  auxInt := pick names "aux_int" v.auxInt
  aux := pick names "aux" v.aux
  reg := pick names "reg" v.reg
  block := pick names "block" v.block
  line := pick names "pos" v.line

theorem reads_nullableReg {r : Option Reg} {cs : List Char}
    (h : NullableText (fun r => NumberText r.number.val) r cs) :
    Reads (readNullable readReg) r cs :=
  reads_nullableText (fun r _ hText => hText ▸ reads_reg r) h

/-- A value is described by its fields, each of which is kept at a place of its own. -/
theorem describes_value (v : Value) : Describes valueRecord v.draft v v.texts where
  names := by decide
  blank := rfl
  fields := by
    -- each field is read by the reader of its own value, in the order of the table
    refine .cons (fieldReads_kept (fun _ => rfl) ?_ fun _ => reads_number_uint32)
      (.cons (fieldReads_kept (fun _ => rfl) ?_ fun _ => reads_op)
        (.cons (fieldReads_kept (fun _ => rfl) ?_ fun _ => reads_ty)
          (.cons (fieldReads_kept (fun _ => rfl) ?_ fun _ => reads_ids)
            (.cons (fieldReads_kept (fun _ => rfl) ?_ fun _ => reads_number_int64)
              (.cons (fieldReads_kept (fun _ => rfl) ?_ fun _ => reads_aux)
                (.cons (fieldReads_kept (fun _ => rfl) ?_ fun _ => reads_nullableReg)
                  (.cons (fieldReads_kept (fun _ => rfl) ?_ fun _ => reads_number_uint32)
                    (.cons (fieldReads_kept (fun _ => rfl) ?_ fun _ => reads_line) .nil))))))))
    all_goals
      intro names
      simp [Value.draft, pick]
  complete names h := by
    simp only [Value.texts, List.forall_mem_cons] at h
    obtain ⟨hId, hOp, hTy, hArgs, hAuxInt, hAux, hReg, hBlock, hLine, -⟩ := h
    -- four fields have to be given; the others, where they are not, are their defaults
    simp only [valueRecord, Value.draft, required_pick hId, required_pick hOp, required_pick hTy,
      required_pick hBlock, getD_pick hArgs, getD_pick hAuxInt, getD_pick hAux, getD_pick hReg,
      getD_pick hLine, ok_bind]
    rfl

theorem reads_value {v : Value} {cs : List Char} (h : v.IsText cs) : Reads valueRecord.read v cs :=
  reads_record (describes_value v) h

/-- The fields of a block; its id and its kind have to be given. -/
def Block.texts (b : Block) : List FieldText :=
  [⟨"id", IdText b.id, False⟩, ⟨"kind", NameText b.kind.name, False⟩,
    ⟨"values", ListText IdText b.values, b.values = []⟩,
    ⟨"control", NullableText (fun id => NumberText id.toNat) b.control, b.control = none⟩,
    ⟨"succs", ListText IdText b.succs, b.succs = []⟩,
    ⟨"pos", NumberText b.line.number.toNat, b.line = .unknown⟩]

def Block.IsText (b : Block) : List Char → Prop := RecordText b.texts

def Block.draft (b : Block) (names : List String) : BlockDraft where
  id := pick names "id" b.id
  kind := pick names "kind" b.kind
  values := pick names "values" b.values
  control := pick names "control" b.control
  succs := pick names "succs" b.succs
  line := pick names "pos" b.line

theorem reads_control {control : Option ValueId} {cs : List Char}
    (h : NullableText (fun id => NumberText id.toNat) control cs) :
    Reads (readNullable readUInt32) control cs :=
  reads_nullableText (fun _ _ => reads_number_uint32) h

/-- A block is described by its fields, each of which is kept at a place of its own. -/
theorem describes_block (b : Block) : Describes blockRecord b.draft b b.texts where
  names := by decide
  blank := rfl
  fields := by
    refine .cons (fieldReads_kept (fun _ => rfl) ?_ fun _ => reads_number_uint32)
      (.cons (fieldReads_kept (fun _ => rfl) ?_ fun _ => reads_blockKind)
        (.cons (fieldReads_kept (fun _ => rfl) ?_ fun _ => reads_ids)
          (.cons (fieldReads_kept (fun _ => rfl) ?_ fun _ => reads_control)
            (.cons (fieldReads_kept (fun _ => rfl) ?_ fun _ => reads_ids)
              (.cons (fieldReads_kept (fun _ => rfl) ?_ fun _ => reads_line) .nil)))))
    all_goals
      intro names
      simp [Block.draft, pick]
  complete names h := by
    simp only [Block.texts, List.forall_mem_cons] at h
    obtain ⟨hId, hKind, hValues, hControl, hSuccs, hLine, -⟩ := h
    simp only [blockRecord, Block.draft, required_pick hId, required_pick hKind,
      getD_pick hValues, getD_pick hControl, getD_pick hSuccs, getD_pick hLine, ok_bind]
    rfl

theorem reads_block {b : Block} {cs : List Char} (h : b.IsText cs) : Reads blockRecord.read b cs :=
  reads_record (describes_block b) h

/-- The fields of a function; the slots may be left out where there are none. -/
def Func.texts (f : Func) : List FieldText :=
  [⟨"name", Quotes f.name, False⟩, ⟨"values", ListText Value.IsText f.values, False⟩,
    ⟨"blocks", ListText Block.IsText f.blocks, False⟩,
    ⟨"slots", f.slots.IsText, f.slots = .empty⟩]

def Func.draft (f : Func) (names : List String) : FuncDraft where
  name := pick names "name" f.name
  values := pick names "values" f.values
  blocks := pick names "blocks" f.blocks
  slots := pick names "slots" f.slots

/-- A function is described by its fields, and the slots it lacks are an empty table. -/
theorem describes_func (f : Func) : Describes funcRecord f.draft f f.texts where
  names := by decide
  blank := rfl
  fields := by
    refine .cons (fieldReads_kept (fun _ => rfl) ?_ fun _ => reads_quotes)
      (.cons (fieldReads_kept (fun _ => rfl) ?_ fun _ => reads_list fun _ _ => reads_value)
        (.cons (fieldReads_kept (fun _ => rfl) ?_ fun _ => reads_list fun _ _ => reads_block)
          (.cons (fieldReads_kept (fun _ => rfl) ?_ fun _ => reads_slots) .nil)))
    all_goals
      intro names
      simp [Func.draft, pick]
  complete names h := by
    simp only [Func.texts, List.forall_mem_cons] at h
    obtain ⟨hName, hValues, hBlocks, hSlots, -⟩ := h
    simp only [funcRecord, Func.draft, required_pick hName, required_pick hValues,
      required_pick hBlocks, getD_pick hSlots, ok_bind]
    rfl

/-- The texts that spell a function: those of its record, with blanks around. -/
def Func.SpelledBy (f : Func) (text : String) : Prop :=
  ∃ ws cs ws', Blanks ws ∧ Blanks ws' ∧ RecordText f.texts cs ∧
    text = String.ofList (ws ++ (cs ++ ws'))

/-- **Every text that spells a function is read as it.** -/
theorem Func.ofText_spelled {f : Func} {text : String} (h : f.SpelledBy text) :
    Func.ofText text = .ok f := by
  obtain ⟨ws, cs, ws', hBlanks, hBlanks', hText, rfl⟩ := h
  exact (reads_record (describes_func f) hText).readAll_blanks hBlanks hBlanks'

end RiscvLowering
