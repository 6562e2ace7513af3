import Mathlib.Data.List.Nodup
import RiscvLowering.Proofs.Cuts
import RiscvLowering.Ssa.Text

/-!
# Descriptions — what the lines of a printed function tell

A line describes a value or a block. It starts with an id and goes on with words:
the name of an operation and a type in angle brackets, or the name of a kind, and
then whatever else there is. What there may or may not be is told by the first
character of its words: arguments begin with a `v`, a constant and a reference
with a bracket of their own, a register with an `r`. So it does not matter that a
constant of 0, an absent reference, register or control value and an empty list
of successors leave no word behind.

Main results:

* `Ty.text_inj` — no two types have the same text.
* `Value.text_eq_iff`, `Block.text_eq_iff` — values and blocks are described alike
  exactly if they agree in what a description shows.
-/

namespace RiscvLowering

/-! ## Types -/

namespace Ty

/-- The letters in front of the text of a type. -/
def stem : Ty → String
  | int _ true => "int"
  | int _ false => "uint"
  | ptr => "ptr"
  | bool => "bool"
  | float _ => "float"
  | mem => "mem"
  | flags => "flags"
  | aggregate _ => ""
  | void => "void"

/-- What stands behind these letters. -/
def extent : Ty → String
  | int size _ | float size => sized "" size
  | aggregate size => "[" ++ size.toNat.repr ++ "]byte"
  | ptr | bool | mem | flags | void => ""

/-- What stands in front of a size is kept apart from it. -/
theorem sized_eq (base : String) (size : UInt64) : sized base size = base ++ sized "" size := by
  unfold sized
  split <;> simp [String.append_assoc]

/-- The text of a type is its name and its extent. -/
theorem text_eq (t : Ty) : t.text = t.stem ++ t.extent := by
  cases t with
  | int size signed => cases signed <;> exact sized_eq _ size
  | float size => exact sized_eq _ size
  | aggregate size => simp [text, stem, extent]
  | _ => rfl

/-- A number of bits is not written as a number of bytes is. -/
theorem bits_ne_bytes (m n : Nat) : "" ++ m.repr ≠ "" ++ "[" ++ n.repr ++ " bytes]" := by
  intro h
  have hText := congrArg String.toList h
  simp only [String.empty_append, String.toList_append] at hText
  have hMem : '[' ∈ m.repr.toList := by
    rw [hText]
    simp
  exact absurd (isDigit_of_mem_natRepr hMem) (by decide)

/-- The size is told apart in both notations: as long as the bits fit, they tell the bytes. -/
theorem sized_injective {m n : UInt64} (h : sized "" m = sized "" n) : m = n := by
  unfold sized at h
  refine UInt64.toNat_inj.mp ?_
  split at h <;> split at h
  · simp only [String.empty_append, natRepr_inj] at h
    omega
  · exact absurd h (bits_ne_bytes _ _)
  · exact absurd h.symm (bits_ne_bytes _ _)
  · simpa [String.append_right_inj, String.append_left_inj, natRepr_inj] using h

/-- The letters tell the kind of type, and what stands behind them the size, if the type has one. -/
theorem eq_of_stem_of_extent {t u : Ty} (hStem : t.stem = u.stem) (hExtent : t.extent = u.extent) :
    t = u := by
  -- the letters leave one case for each kind of type
  rcases t with ⟨m, _ | _⟩ | _ | _ | m | _ | _ | m | _ <;>
    rcases u with ⟨n, _ | _⟩ | _ | _ | n | _ | _ | n | _ <;>
    first | rfl | (simp [stem] at hStem; done) | skip
  case aggregate.aggregate =>
    simp only [extent, String.append_left_inj, String.append_right_inj, natRepr_inj] at hExtent
    rw [UInt64.toNat_inj.mp hExtent]
  all_goals rw [sized_injective hExtent]

/-- All that a text can begin with. -/
def stems : List String := ["int", "uint", "ptr", "bool", "float", "mem", "flags", "", "void"]

theorem stem_mem_stems (t : Ty) : t.stem ∈ stems := by
  rcases t with ⟨m, _ | _⟩ | _ | _ | m | _ | _ | m | _ <;> simp [stem, stems]

/-- A character that a size may begin with; it is none of the letters. -/
def opensExtent (c : Char) : Bool := c.isDigit || c = '['

/-- No name of a type has a digit or a bracket in it. -/
theorem not_opensExtent_of_mem_stem (t : Ty) : ∀ c ∈ t.stem.toList, (!opensExtent c) = true := by
  have hStems : ∀ s ∈ stems, s.toList.all (!opensExtent ·) = true := by decide
  exact List.all_eq_true.mp (hStems t.stem t.stem_mem_stems)

/-- An extent begins with a digit or a bracket, so this is where the name ends. -/
theorem opensExtent_of_head? (t : Ty) : ∀ c ∈ t.extent.toList.head?, (!opensExtent c) = false := by
  have hSized : ∀ size, ∀ c ∈ (sized "" size).toList.head?, (!opensExtent c) = false := by
    intro size c hc
    unfold sized at hc
    split at hc
    · rw [String.empty_append] at hc
      have hDigit := isDigit_of_mem_natRepr (List.mem_of_mem_head? hc)
      simp [opensExtent, hDigit]
    · have hBracket : '[' = c := by simpa using hc
      rw [← hBracket]
      decide
  -- a size in bits begins with a digit, and one in bytes with a bracket
  cases t with
  | int size _ | float size => exact hSized size
  | aggregate size =>
    intro c hc
    have hBracket : '[' = c := by simpa [extent] using hc
    rw [← hBracket]
    decide
  | _ => simp [extent]

/-- **No two types have the same text**, whatever their sizes. -/
theorem text_inj {t u : Ty} : t.text = u.text ↔ t = u := by
  refine ⟨fun h => ?_, fun h => h ▸ rfl⟩
  have hText := congrArg String.toList h
  rw [text_eq, text_eq, String.toList_append, String.toList_append] at hText
  -- the letters end where a digit or a bracket stands
  obtain ⟨hStem, hExtent⟩ := append_injective_of_stops (p := (!opensExtent ·))
    t.not_opensExtent_of_mem_stem u.not_opensExtent_of_mem_stem t.opensExtent_of_head?
    u.opensExtent_of_head? hText
  exact eq_of_stem_of_extent (String.toList_inj.mp hStem) (String.toList_inj.mp hExtent)

/-- The bits of a size are shown as long as they fit 64-bit range, and then the bytes. -/
example : (int 2305843009213693951 true).text = "int18446744073709551608" ∧
    (int 2305843009213693952 true).text = "int[2305843009213693952 bytes]" := by decide

/-- A character of the text of a type. -/
def isTypeChar (c : Char) : Bool := isNameChar c || c = '[' || c = ']' || c = ' '

theorem isTypeChar_of_isNameChar {c : Char} (h : isNameChar c = true) : isTypeChar c = true := by
  simp [isTypeChar, h]

/-- The text of a type has no angle bracket in it. -/
theorem isTypeChar_of_mem_text {t : Ty} {c : Char} (h : c ∈ t.text.toList) :
    isTypeChar c = true := by
  have hStems : ∀ s ∈ stems, s.toList.all isTypeChar = true := by decide
  have hDigits : ∀ n : Nat, ∀ c ∈ n.repr.toList, isTypeChar c = true := fun n c hc =>
    isTypeChar_of_isNameChar (isNameChar_of_mem_natRepr hc)
  have hLeft : ∀ c ∈ "[".toList, isTypeChar c = true := List.all_eq_true.mp (by decide)
  -- an extent is digits, or digits with a word in brackets
  have hExtent : ∀ c ∈ t.extent.toList, isTypeChar c = true := by
    cases t with
    | int size _ | float size =>
      rw [extent, sized]
      split
      · simpa using hDigits _
      · simp only [String.toList_append, List.forall_mem_append]
        exact ⟨⟨⟨by simp, hLeft⟩, hDigits _⟩, List.all_eq_true.mp (by decide)⟩
    | aggregate size =>
      simp only [extent, String.toList_append, List.forall_mem_append]
      exact ⟨⟨hLeft, hDigits _⟩, List.all_eq_true.mp (by decide)⟩
    | _ => simp [extent]
  rw [text_eq, String.toList_append, List.mem_append] at h
  obtain h | h := h
  · exact List.all_eq_true.mp (hStems t.stem t.stem_mem_stems) c h
  · exact hExtent c h

end Ty

/-! ## Words -/

/-- A character of a word. -/
def isPartChar (c : Char) : Bool :=
  isNameChar c || c = '-' || c = '>' || c = '[' || c = ']' || c = '\x7b' || c = '\x7d' || c = ':'

theorem isPartChar_of_isNameChar {c : Char} (h : isNameChar c = true) : isPartChar c = true := by
  simp [isPartChar, h]

theorem isPartChar_of_mem_names {α : Type} {name : α → String}
    (hName : ∀ {a c}, c ∈ (name a).toList → isNameChar c = true) (xs : List α) :
    ∀ w ∈ xs.map (fun a => (name a).toList), ∀ c ∈ w, isPartChar c = true := by
  intro w hw c hc
  obtain ⟨a, -, rfl⟩ := List.mem_map.mp hw
  exact isPartChar_of_isNameChar (hName hc)

theorem isPartChar_of_mem_bracketed {left right : Char} {inner : List Char}
    (hLeft : isPartChar left = true) (hRight : isPartChar right = true)
    (hInner : ∀ c ∈ inner, isPartChar c = true) :
    ∀ c ∈ left :: (inner ++ [right]), isPartChar c = true := by
  intro c hc
  obtain rfl | hc := List.mem_cons.mp hc
  · exact hLeft
  · obtain hc | hc := List.mem_append.mp hc
    · exact hInner c hc
    · obtain rfl := List.mem_singleton.mp hc
      exact hRight

/-- Whether the first character of a word is this one. -/
def opensWith (c : Char) (w : List Char) : Bool := w.head? = some c

/-- Words that all begin with one character are those that begin with it, and no others do. -/
theorem filter_opensWith {c : Char} {ws : List (List Char)} (h : ∀ w ∈ ws, w.head? = some c)
    (d : Char) : ws.filter (opensWith d) = if c = d then ws else [] := by
  split
  · rename_i hSame
    exact List.filter_eq_self.mpr fun w hw => by simp [opensWith, h w hw, hSame]
  · rename_i hOther
    exact List.filter_eq_nil_iff.mpr fun w hw => by simp [opensWith, h w hw, hOther]

/-! ## Values -/

/-- Operations are told from their names. -/
theorem Op.name_inj {a b : Op} : a.name = b.name ↔ a = b :=
  ⟨fun h => List.inj_on_of_nodup_map name_nodup (mem_all a) (mem_all b) h, fun h => h ▸ rfl⟩

theorem Op.isNameChar_of_mem_name {op : Op} {c : Char} (h : c ∈ op.name.toList) :
    isNameChar c = true := by
  have hAll : ∀ op ∈ all, op.name.toList.all isNameChar = true := by decide +kernel
  exact List.all_eq_true.mp (hAll op (mem_all op)) c h

theorem Reg.allocatorName_inj {r s : Reg} : r.allocatorName = s.allocatorName ↔ r = s := by
  rw [allocatorName, allocatorName, String.append_right_inj, natRepr_inj, Fin.val_inj, Reg.mk.injEq]

theorem Reg.isNameChar_of_mem_allocatorName {r : Reg} {c : Char}
    (h : c ∈ r.allocatorName.toList) : isNameChar c = true :=
  isNameChar_of_mem_numbered (by decide) h

/-- The name of what is referred to, if there is a reference. -/
def Aux.name? : Aux → Option String
  | none => Option.none
  | global name => some name
  | arg v | auto v | var v => some v.name

namespace Value

/-- A name that the value refers to is made of letters, digits, underscores and dots. -/
def Named (v : Value) : Prop := ∀ name ∈ v.aux.name?, name.toList.all isNameChar = true

instance (v : Value) : Decidable v.Named :=
  inferInstanceAs (Decidable (∀ name ∈ v.aux.name?, name.toList.all isNameChar = true))

/-- The values agree in what a description shows. It shows of a reference whether there is one, and
by what name, and nothing of the owner and the line. -/
structure AgreesInText (v w : Value) : Prop where
  id : v.id = w.id
  op : v.op = w.op
  ty : v.ty = w.ty
  args : v.args = w.args
  auxInt : v.auxInt = w.auxInt
  aux : v.aux.name? = w.aux.name?
  reg : v.reg = w.reg

/-- A constant of 0 leaves no word behind, and any other one in brackets. -/
def constantWords (n : Int64) : List (List Char) :=
  if n = 0 then [] else ['[' :: (n.toInt.repr.toList ++ [']'])]

/-- An absent reference leaves no word behind, and any other one in braces. -/
def auxWords (name : Option String) : List (List Char) :=
  name.toList.map fun name => '\x7b' :: (name.toList ++ ['\x7d'])

/-- An absent register leaves no word behind, and any other two. -/
def registerWords (reg : Option Reg) : List (List Char) :=
  reg.toList.flatMap fun r => [[':'], r.allocatorName.toList]

/-- The words behind the type. -/
def words (v : Value) : List (List Char) :=
  v.args.map (·.name.toList) ++
    (constantWords v.auxInt ++ (auxWords v.aux.name? ++ registerWords v.reg))

/-- A description is the id, the operation, the type, and then words with a blank before each. -/
theorem toList_text (v : Value) :
    v.text.toList = v.id.name.toList ++ ' ' :: ("= ".toList ++ (v.op.name.toList ++
      ' ' :: '<' :: (v.ty.text.toList ++ '>' :: v.words.flatMap (' ' :: ·)))) := by
  -- each part that may be absent is a list of words, which is empty if it is
  have hArgs : (String.join (v.args.map fun id => " " ++ id.name)).toList =
      (v.args.map (·.name.toList)).flatMap (' ' :: ·) := by
    simp [String.toList_join, List.flatMap_map]
  have hConstant : (if v.auxInt = 0 then "" else " [" ++ v.auxInt.toInt.repr ++ "]").toList =
      (constantWords v.auxInt).flatMap (' ' :: ·) := by
    unfold constantWords
    split <;> simp
  have hAux : (if v.aux = .none then "" else " \x7b" ++ v.aux.text ++ "\x7d").toList =
      (auxWords v.aux.name?).flatMap (' ' :: ·) := by
    cases v.aux <;> simp [auxWords, Aux.name?, Aux.text]
  have hReg : (v.reg.elim "" fun r => " : " ++ r.allocatorName).toList =
      (registerWords v.reg).flatMap (' ' :: ·) := by
    cases v.reg <;> simp [registerWords]
  rw [text]
  simp only [String.toList_append, hArgs, hConstant, hAux, hReg, words, List.flatMap_append]
  simp

/-- Each kind of word is found by its first character. -/
theorem filter_words (v : Value) :
    v.words.filter (opensWith 'v') = v.args.map (·.name.toList) ∧
    v.words.filter (opensWith '[') = constantWords v.auxInt ∧
    v.words.filter (opensWith '\x7b') = auxWords v.aux.name? ∧
    v.words.filter (opensWith 'r') = v.reg.toList.map (·.allocatorName.toList) := by
  have hArgs : ∀ w ∈ v.args.map (·.name.toList), w.head? = some 'v' := by
    simp [ValueId.name]
  have hConstant : ∀ w ∈ constantWords v.auxInt, w.head? = some '[' := by
    unfold constantWords
    split <;> simp
  have hAux : ∀ w ∈ auxWords v.aux.name?, w.head? = some '\x7b' := by
    simp [auxWords]
  simp only [words, List.filter_append, filter_opensWith hArgs, filter_opensWith hConstant,
    filter_opensWith hAux]
  -- a register leaves a colon behind as well, which begins as none of the others do
  cases v.reg <;> simp [registerWords, opensWith, Reg.allocatorName]

/-- The words of a constant tell it, as 0 is the one without any. -/
theorem constantWords_injective {m n : Int64} (h : constantWords m = constantWords n) : m = n := by
  unfold constantWords at h
  -- only a constant of 0 leaves no word
  split at h <;> split at h
  · simp_all
  · cases h
  · cases h
  · have hText : m.toInt.repr.toList = n.toInt.repr.toList := by simpa using h
    exact int64_repr_inj.mp (String.toList_inj.mp hText)

theorem auxWords_injective {a b : Option String} (h : auxWords a = auxWords b) : a = b := by
  cases a <;> cases b <;> simp_all [auxWords, String.toList_inj]

/-- The words behind the type tell all that is shown there. -/
theorem eq_of_words_eq {v w : Value} (h : v.words = w.words) :
    v.args = w.args ∧ v.auxInt = w.auxInt ∧ v.aux.name? = w.aux.name? ∧ v.reg = w.reg := by
  obtain ⟨hArgs, hConstant, hAux, hReg⟩ := v.filter_words
  obtain ⟨hArgs', hConstant', hAux', hReg'⟩ := w.filter_words
  rw [h] at hArgs hConstant hAux hReg
  exact ⟨map_name_injective ValueId.name_inj (hArgs.symm.trans hArgs'),
    constantWords_injective (hConstant.symm.trans hConstant'),
    auxWords_injective (hAux.symm.trans hAux'),
    option_name_injective Reg.allocatorName_inj (hReg.symm.trans hReg')⟩

/-- No word of a description has a blank or an end of line in it. -/
theorem isPartChar_of_mem_words {v : Value} (hv : v.Named) :
    ∀ w ∈ v.words, ∀ c ∈ w, isPartChar c = true := by
  -- the words are of four kinds: arguments, a constant, a reference and a register
  have hArgs : ∀ w ∈ v.args.map (·.name.toList), ∀ c ∈ w, isPartChar c = true :=
    isPartChar_of_mem_names isNameChar_of_mem_valueName _
  have hConstant : ∀ w ∈ constantWords v.auxInt, ∀ c ∈ w, isPartChar c = true := by
    have hNumeral : ∀ c ∈ v.auxInt.toInt.repr.toList, isPartChar c = true := by
      intro c hc
      obtain rfl | hDigit := isDigit_or_of_mem_repr hc
      · decide
      · exact isPartChar_of_isNameChar (isNameChar_of_isDigit hDigit)
    unfold constantWords
    split
    · simp
    · rw [List.forall_mem_singleton]
      exact isPartChar_of_mem_bracketed (by decide) (by decide) hNumeral
  have hAux : ∀ w ∈ auxWords v.aux.name?, ∀ c ∈ w, isPartChar c = true := by
    intro w hw
    obtain ⟨name, hName, rfl⟩ := List.mem_map.mp hw
    have hChars := List.all_eq_true.mp (hv name (Option.mem_toList.mp hName))
    exact isPartChar_of_mem_bracketed (by decide) (by decide) fun c hc =>
      isPartChar_of_isNameChar (hChars c hc)
  have hReg : ∀ w ∈ registerWords v.reg, ∀ c ∈ w, isPartChar c = true := by
    intro w hw c hc
    obtain ⟨r, -, hw⟩ := List.mem_flatMap.mp hw
    obtain rfl | rfl := List.mem_pair.mp hw
    · obtain rfl := List.mem_singleton.mp hc
      decide
    · exact isPartChar_of_isNameChar (Reg.isNameChar_of_mem_allocatorName hc)
  simp only [words, List.forall_mem_append]
  exact ⟨hArgs, hConstant, hAux, hReg⟩

theorem blank_not_mem_words {v : Value} (hv : v.Named) : ∀ w ∈ v.words, ' ' ∉ w := by
  intro w hw hMem
  exact absurd (isPartChar_of_mem_words hv w hw _ hMem) (by decide)

/-- A description shows nothing else. -/
theorem AgreesInText.text_eq {v w : Value} (h : v.AgreesInText w) : v.text = w.text := by
  refine String.toList_inj.mp ?_
  rw [toList_text, toList_text, words, words, h.id, h.op, h.ty, h.args, h.auxInt, h.aux, h.reg]

/-- **The description of a value tells what it shows.** -/
theorem text_eq_iff {v w : Value} (hv : v.Named) (hw : w.Named) :
    v.text = w.text ↔ v.AgreesInText w := by
  refine ⟨fun h => ?_, AgreesInText.text_eq⟩
  have hText := congrArg String.toList h
  rw [toList_text, toList_text] at hText
  -- the id and the operation end where a blank stands, the type at its bracket
  obtain ⟨hId, hText⟩ := append_cons_injective (by decide)
    (fun _ => isNameChar_of_mem_valueName) (fun _ => isNameChar_of_mem_valueName) hText
  obtain ⟨hOp, hText⟩ := append_cons_injective (by decide)
    (fun _ => Op.isNameChar_of_mem_name) (fun _ => Op.isNameChar_of_mem_name)
    (List.append_cancel_left hText)
  obtain ⟨hTy, hText⟩ := append_cons_injective (by decide)
    (fun _ => Ty.isTypeChar_of_mem_text) (fun _ => Ty.isTypeChar_of_mem_text)
    (List.tail_eq_of_cons_eq hText)
  have hWords := flatMap_cons_injective (blank_not_mem_words hv) (blank_not_mem_words hw) hText
  obtain ⟨hArgs, hConstant, hAux, hReg⟩ := eq_of_words_eq hWords
  exact {
    id := ValueId.name_inj.mp (String.toList_inj.mp hId)
    op := Op.name_inj.mp (String.toList_inj.mp hOp)
    ty := Ty.text_inj.mp (String.toList_inj.mp hTy)
    args := hArgs
    auxInt := hConstant
    aux := hAux
    reg := hReg }

/-- A description is a single line. -/
theorem newline_not_mem_text {v : Value} (hv : v.Named) : '\n' ∉ v.text.toList := by
  -- each part has its own class of characters, and none of them holds an end of line
  have hId : '\n' ∉ v.id.name.toList := fun h =>
    absurd (isNameChar_of_mem_valueName h) (by decide)
  have hOp : '\n' ∉ v.op.name.toList := fun h =>
    absurd (Op.isNameChar_of_mem_name h) (by decide)
  have hTy : '\n' ∉ v.ty.text.toList := fun h =>
    absurd (Ty.isTypeChar_of_mem_text h) (by decide)
  have hWords : ∀ w ∈ v.words, '\n' ∉ w := fun w hw h =>
    absurd (isPartChar_of_mem_words hv w hw _ h) (by decide)
  rw [toList_text]
  simpa [hId, hOp, hTy] using hWords

end Value

/-! ## Blocks -/

theorem BlockKind.name_inj {a b : BlockKind} : a.name = b.name ↔ a = b :=
  ⟨fun h => List.inj_on_of_nodup_map name_nodup (mem_all a) (mem_all b) h, fun h => h ▸ rfl⟩

theorem BlockKind.isNameChar_of_mem_name {kind : BlockKind} {c : Char}
    (h : c ∈ kind.name.toList) : isNameChar c = true := by
  have hAll : ∀ kind ∈ all, kind.name.toList.all isNameChar = true := by decide
  exact List.all_eq_true.mp (hAll kind (mem_all kind)) c h

namespace Block

/-- The blocks agree in what a description shows, which is not the schedule, nor the line. -/
structure AgreesInText (b c : Block) : Prop where
  id : b.id = c.id
  kind : b.kind = c.kind
  control : b.control = c.control
  succs : b.succs = c.succs

/-- No successors leave no word behind, and others their names behind an arrow. -/
def succWords : List BlockId → List (List Char)
  | [] => []
  | id :: ids => ['-', '>'] :: (id :: ids).map (·.name.toList)

/-- The words behind the kind. -/
def words (b : Block) : List (List Char) :=
  b.control.toList.map (·.name.toList) ++ succWords b.succs

/-- A description is the id, the kind and these words, with blanks between them. -/
theorem toList_text (b : Block) :
    b.text.toList = [' '].intercalate (b.id.name.toList :: b.kind.name.toList :: b.words) := by
  -- as for values, what may be absent is a list of words
  have hControl : (b.control.elim "" fun id => " " ++ id.name).toList =
      (b.control.toList.map (·.name.toList)).flatMap (' ' :: ·) := by
    cases b.control <;> simp
  have hSuccs : (if b.succs = [] then "" else
      " ->" ++ String.join (b.succs.map fun id => " " ++ id.name)).toList =
      (succWords b.succs).flatMap (' ' :: ·) := by
    cases b.succs <;> simp [succWords, String.toList_join, List.flatMap_map]
  rw [text]
  simp only [String.toList_append, hControl, hSuccs, words, intercalate_cons_eq, List.flatMap_cons,
    List.flatMap_append]
  simp

/-- Each kind of word is found by its first character. -/
theorem filter_words (b : Block) :
    b.words.filter (opensWith 'v') = b.control.toList.map (·.name.toList) ∧
    b.words.filter (opensWith 'b') = b.succs.map (·.name.toList) := by
  have hControl : ∀ w ∈ b.control.toList.map (·.name.toList), w.head? = some 'v' := by
    simp [ValueId.name]
  have hSuccs : ∀ w ∈ b.succs.map (·.name.toList), w.head? = some 'b' := by
    simp [BlockId.name]
  -- the arrow is left out, since it begins with neither letter
  have hArrow : ∀ d, '-' ≠ d → (succWords b.succs).filter (opensWith d) =
      (b.succs.map (·.name.toList)).filter (opensWith d) := by
    intro d hd
    cases b.succs with
    | nil => rfl
    | cons id ids => rw [succWords, List.filter_cons_of_neg (by simpa [opensWith] using hd)]
  simp only [words, List.filter_append, hArrow 'v' (by decide), hArrow 'b' (by decide),
    filter_opensWith hControl, filter_opensWith hSuccs]
  simp

theorem isPartChar_of_mem_words (b : Block) :
    ∀ w ∈ b.id.name.toList :: b.kind.name.toList :: b.words, ∀ c ∈ w, isPartChar c = true := by
  have hControl : ∀ w ∈ b.control.toList.map (·.name.toList), ∀ c ∈ w, isPartChar c = true :=
    isPartChar_of_mem_names isNameChar_of_mem_valueName _
  have hSuccs : ∀ w ∈ succWords b.succs, ∀ c ∈ w, isPartChar c = true := by
    cases b.succs with
    | nil => simp [succWords]
    | cons id ids =>
      rw [succWords, List.forall_mem_cons]
      exact ⟨List.all_eq_true.mp (by decide),
        isPartChar_of_mem_names isNameChar_of_mem_blockName (id :: ids)⟩
  simp only [words, List.forall_mem_cons, List.forall_mem_append]
  exact ⟨fun c hc => isPartChar_of_isNameChar (isNameChar_of_mem_blockName hc),
    fun c hc => isPartChar_of_isNameChar (BlockKind.isNameChar_of_mem_name hc), hControl, hSuccs⟩

/-- **The description of a block tells what it shows.** -/
theorem text_eq_iff {b c : Block} : b.text = c.text ↔ b.AgreesInText c := by
  -- no word holds a blank, so the blanks are those between them
  have hBlank : ∀ b : Block, ∀ w ∈ b.id.name.toList :: b.kind.name.toList :: b.words, ' ' ∉ w :=
    fun b w hw hMem => absurd (b.isPartChar_of_mem_words w hw _ hMem) (by decide)
  constructor
  · intro h
    have hText := congrArg String.toList h
    rw [toList_text, toList_text] at hText
    have hAll := intercalate_injective (List.cons_ne_nil _ _) (List.cons_ne_nil _ _) (hBlank b)
      (hBlank c) hText
    obtain ⟨hId, hAll⟩ := List.cons.inj hAll
    obtain ⟨hKind, hWords⟩ := List.cons.inj hAll
    -- the first characters of the words tell which is which
    obtain ⟨hControl, hSuccs⟩ := b.filter_words
    obtain ⟨hControl', hSuccs'⟩ := c.filter_words
    rw [hWords] at hControl hSuccs
    exact {
      id := BlockId.name_inj.mp (String.toList_inj.mp hId)
      kind := BlockKind.name_inj.mp (String.toList_inj.mp hKind)
      control := option_name_injective ValueId.name_inj (hControl.symm.trans hControl')
      succs := map_name_injective BlockId.name_inj (hSuccs.symm.trans hSuccs') }
  · intro h
    refine String.toList_inj.mp ?_
    rw [toList_text, toList_text, words, words, h.id, h.kind, h.control, h.succs]

/-- A description is a single line. -/
theorem newline_not_mem_text (b : Block) : '\n' ∉ b.text.toList := by
  intro hMem
  rw [toList_text] at hMem
  obtain hBlank | ⟨w, hw, hc⟩ := mem_intercalate hMem
  · exact absurd hBlank (by decide)
  · exact absurd (b.isPartChar_of_mem_words w hw _ hc) (by decide)

end Block

end RiscvLowering
