import RiscvLowering.Machine.Listing
import RiscvLowering.Proofs.Cuts
import RiscvLowering.Proofs.Decisions

/-!
# Operands — what the text of an instruction tells

The text of an instruction is a mnemonic with the texts of its operands: names
of registers, numbers and memory operands. Each of them tells what it stands
for, since names, signs, brackets and digits do not get into each other's way.

One thing is lost on the way. The area of a symbol is shown only where there is
no base register, so that operands with one may differ in it (`Address.Alike`).

Main results:

* `Address.alike_of_text_eq` — the text of a memory operand tells its parts.
* `Opcode.mnemonic_injective` — no two instructions share a mnemonic.
* `Inst.alike_of_args_eq` — the texts of the operands tell the rest.
-/

namespace RiscvLowering

open Json

/-! ## Names and characters -/

theorem Reg.abiName_inj : ∀ {a b : Reg}, a.abiName = b.abiName ↔ a = b := by
  -- there are 32 of them, so it can be looked at
  have hNumber : ∀ m n : Fin 32, Reg.abiNames[m] = Reg.abiNames[n] → m = n := by decide +kernel
  rintro ⟨m⟩ ⟨n⟩
  exact ⟨fun h => congrArg Reg.mk (hNumber m n h), fun h => h ▸ rfl⟩

/-- A name of a symbol that is an identifier: not empty, of name characters only, and no digit at
the front. -/
def IsIdentifier (name : String) : Prop :=
  name.toList.head?.any (!·.isDigit) = true ∧ name.toList.all isNameChar = true

instance (name : String) : Decidable (IsIdentifier name) :=
  inferInstanceAs (Decidable (_ ∧ _))

theorem IsIdentifier.isNameChar {name : String} (h : IsIdentifier name) :
    ∀ c ∈ name.toList, isNameChar c = true :=
  List.all_eq_true.mp h.2

/-- A character of what stands before the brackets of an operand. -/
def isStemChar (c : Char) : Bool := isNameChar c || c = '+' || c = '-'

/-- A character of an operand. -/
def isOperandChar (c : Char) : Bool := isStemChar c || c = '(' || c = ')'

/-- A character that stands between two blanks of a line. -/
def isWordChar (c : Char) : Bool := isOperandChar c || c = ',' || c = '>' || c = ';' || c = ':'

theorem isStemChar_of_isNameChar {c : Char} (h : isNameChar c = true) : isStemChar c = true := by
  simp [isStemChar, h]

theorem isOperandChar_of_isStemChar {c : Char} (h : isStemChar c = true) :
    isOperandChar c = true := by
  simp [isOperandChar, h]

theorem isWordChar_of_isOperandChar {c : Char} (h : isOperandChar c = true) :
    isWordChar c = true := by
  simp [isWordChar, h]

theorem isWordChar_of_isNameChar {c : Char} (h : isNameChar c = true) : isWordChar c = true :=
  isWordChar_of_isOperandChar (isOperandChar_of_isStemChar (isStemChar_of_isNameChar h))

/-- A number is made of digits, with a sign in front at most. -/
theorem isStemChar_of_mem_repr {n : Int} {c : Char} (h : c ∈ n.repr.toList) :
    isStemChar c = true := by
  obtain rfl | hDigit := isDigit_or_of_mem_repr h
  · decide
  · exact isStemChar_of_isNameChar (isNameChar_of_isDigit hDigit)

theorem isNameChar_of_mem_abiName {r : Reg} {c : Char} (h : c ∈ r.abiName.toList) :
    isNameChar c = true := by
  have hNames : ∀ n : Fin 32, Reg.abiNames[n].toList.all isNameChar = true := by decide +kernel
  exact List.all_eq_true.mp (hNames r.number) c h

/-! ## Memory operands -/

namespace Address

/-- The operand's symbol, if it has one, is an identifier. -/
def Named (a : Address) : Prop := ∀ name ∈ a.symbol.name?, IsIdentifier name

instance (a : Address) : Decidable a.Named :=
  inferInstanceAs (Decidable (∀ name ∈ a.symbol.name?, IsIdentifier name))

/-- The operands agree in all but the area of a symbol that stands by a base register. -/
structure Alike (a b : Address) : Prop where
  base : a.base = b.base
  name : a.symbol.name? = b.symbol.name?
  offset : a.offset = b.offset
  area : a.base = none → a.symbol = b.symbol

/-- What stands behind the name of a symbol for an offset from it. -/
def suffix (offset : Int64) : List Char :=
  if offset = 0 then [] else (signed offset.toInt).toList

/-- A number with its sign begins with the sign. -/
theorem signed_cases (n : Int) :
    (signed n).toList = '+' :: n.repr.toList ∨
      ∃ digits, n.repr.toList = '-' :: digits ∧ (signed n).toList = '-' :: digits := by
  by_cases h : 0 ≤ n
  · refine .inl ?_
    rw [signed, if_pos h, String.toList_append]
    rfl
  · refine .inr ⟨Nat.toDigits 10 n.natAbs, ?_, ?_⟩
    · rw [Numeral.repr_toList, if_pos (by omega)]
    · rw [signed, if_neg h, String.empty_append, Numeral.repr_toList, if_pos (by omega)]

/-- What shows an offset behind a name does not go on with the name. -/
theorem head?_suffix (offset : Int64) : ∀ c ∈ (suffix offset).head?, isNameChar c = false := by
  intro c hc
  unfold suffix at hc
  split at hc
  · simp at hc
  · -- neither sign is a name character
    obtain hPlus | ⟨digits, -, hMinus⟩ := signed_cases offset.toInt
    · rw [hPlus] at hc
      obtain rfl := Option.some.inj hc
      decide
    · rw [hMinus] at hc
      obtain rfl := Option.some.inj hc
      decide

/-- The sign and the digits tell the offset. -/
theorem suffix_injective {a b : Int64} (h : suffix a = suffix b) : a = b := by
  unfold suffix at h
  -- an offset that is shown shows something, so 0 is the one without a suffix
  have hNonempty : ∀ n : Int, (signed n).toList ≠ [] := by
    intro n hEmpty
    obtain hPlus | ⟨digits, -, hMinus⟩ := signed_cases n <;> simp_all
  by_cases ha : a = 0
  · by_cases hb : b = 0
    · rw [ha, hb]
    · rw [if_pos ha, if_neg hb] at h
      exact absurd h.symm (hNonempty _)
  · by_cases hb : b = 0
    · rw [if_neg ha, if_pos hb] at h
      exact absurd h (hNonempty _)
    · rw [if_neg ha, if_neg hb] at h
      -- the signs are the same, so that the numbers are written alike
      refine int64_repr_inj.mp (String.toList_inj.mp ?_)
      obtain ha | ⟨ds, hda, ha⟩ := signed_cases a.toInt <;>
        obtain hb | ⟨es, heb, hb⟩ := signed_cases b.toInt <;> rw [ha, hb] at h
      · exact (List.cons.inj h).2
      · exact absurd (List.cons.inj h).1 (by decide)
      · exact absurd (List.cons.inj h).1 (by decide)
      · rw [hda, heb, h]

/-- Behind the name of a symbol stands its offset, if there is one. -/
theorem toList_stem_of_name {a : Address} {name : String} (h : a.symbol.name? = some name) :
    a.stem.toList = name.toList ++ suffix a.offset := by
  unfold stem suffix
  rw [h]
  dsimp only
  split
  · rw [List.append_nil]
  · rw [String.toList_append]

theorem toList_stem_of_none {a : Address} (h : a.symbol.name? = none) :
    a.stem.toList = a.offset.toInt.repr.toList := by
  unfold stem
  rw [h]

/-- A number is not written as a name is, whatever follows the name. -/
theorem repr_ne_name {name : String} (h : IsIdentifier name) (n : Int) (rest : List Char) :
    n.repr.toList ≠ name.toList ++ rest := by
  intro hEq
  have hFirst := h.1
  have hChars := h.isNameChar
  obtain ⟨c, cs, hText, hNumeral⟩ := repr_eq_cons n
  cases hName : name.toList with
  | nil => simp [hName] at hFirst
  | cons d ds =>
    rw [hText, hName, List.cons_append] at hEq
    obtain ⟨rfl, -⟩ := List.cons.inj hEq
    rw [hName] at hFirst hChars
    -- the first character of a numeral is a minus sign or a digit
    obtain rfl | hDigit := hNumeral
    · exact absurd (hChars '-' List.mem_cons_self) (by decide)
    · simp [hDigit] at hFirst

/-- The part before the brackets tells the symbol's name and the offset. -/
theorem stem_injective {a b : Address} (ha : a.Named) (hb : b.Named)
    (h : a.stem.toList = b.stem.toList) :
    a.symbol.name? = b.symbol.name? ∧ a.offset = b.offset := by
  cases hNameA : a.symbol.name? with
  | none =>
    rw [toList_stem_of_none hNameA] at h
    cases hNameB : b.symbol.name? with
    | none =>
      rw [toList_stem_of_none hNameB] at h
      exact ⟨rfl, int64_repr_inj.mp (String.toList_inj.mp h)⟩
    | some name =>
      rw [toList_stem_of_name hNameB] at h
      exact absurd h (repr_ne_name (hb name hNameB) _ _)
  | some name =>
    rw [toList_stem_of_name hNameA] at h
    cases hNameB : b.symbol.name? with
    | none =>
      rw [toList_stem_of_none hNameB] at h
      exact absurd h.symm (repr_ne_name (ha name hNameA) _ _)
    | some name' =>
      rw [toList_stem_of_name hNameB] at h
      -- the name ends where the sign of the offset stands
      obtain ⟨hName, hSuffix⟩ := append_injective_of_stops (ha name hNameA).isNameChar (hb name' hNameB).isNameChar
        (head?_suffix a.offset) (head?_suffix b.offset) h
      exact ⟨congrArg some (String.toList_inj.mp hName), suffix_injective hSuffix⟩

/-- No register is named as an area is. -/
theorem area?_ne_abiName (s : Symbol) (r : Reg) : s.area? ≠ some r.abiName := by
  have hAreas : ∀ n : Fin 32, "SB" ≠ Reg.abiNames[n] ∧ "FP" ≠ Reg.abiNames[n] ∧
      "SP" ≠ Reg.abiNames[n] := by decide +kernel
  obtain ⟨hGlobal, hParam, hAuto⟩ := hAreas r.number
  intro h
  cases s with
  | none => cases h
  | global name => exact hGlobal (Option.some.inj h)
  | param name => exact hParam (Option.some.inj h)
  | auto name => exact hAuto (Option.some.inj h)

/-- A symbol is its name and its area. -/
theorem symbol_of_name_of_area {s t : Symbol} (hName : s.name? = t.name?)
    (hArea : s.area? = t.area?) : s = t := by
  cases s <;> cases t <;> simp_all [Symbol.name?, Symbol.area?]

/-- The brackets tell the base register, and the area of a symbol that stands by none. -/
theorem base_of_base?_eq {a b : Address} (hName : a.symbol.name? = b.symbol.name?)
    (h : a.base? = b.base?) : a.base = b.base ∧ (a.base = none → a.symbol = b.symbol) := by
  unfold base? at h
  -- an area is no name of a register, so either both have a base or neither has one
  cases hBaseA : a.base with
  | none =>
    cases hBaseB : b.base with
    | none =>
      rw [hBaseA, hBaseB] at h
      exact ⟨rfl, fun _ => symbol_of_name_of_area hName h⟩
    | some s =>
      rw [hBaseA, hBaseB] at h
      exact absurd h (area?_ne_abiName a.symbol s)
  | some r =>
    cases hBaseB : b.base with
    | none =>
      rw [hBaseA, hBaseB] at h
      exact absurd h.symm (area?_ne_abiName b.symbol r)
    | some s =>
      rw [hBaseA, hBaseB] at h
      obtain rfl := Reg.abiName_inj.mp (Option.some.inj h)
      exact ⟨rfl, fun hNone => nomatch hNone⟩

/-- The part in front of the brackets has none of them in it. -/
theorem isStemChar_of_mem_stem {a : Address} (ha : a.Named) {c : Char} (h : c ∈ a.stem.toList) :
    isStemChar c = true := by
  -- a number, or a name with an offset behind it
  cases hName : a.symbol.name? with
  | none =>
    rw [toList_stem_of_none hName] at h
    exact isStemChar_of_mem_repr h
  | some name =>
    rw [toList_stem_of_name hName, List.mem_append, suffix] at h
    obtain h | h := h
    · exact isStemChar_of_isNameChar ((ha name hName).isNameChar c h)
    · split at h
      · simp at h
      · obtain hPlus | ⟨digits, hDigits, hMinus⟩ := signed_cases a.offset.toInt
        · rw [hPlus] at h
          obtain rfl | h := List.mem_cons.mp h
          · decide
          · exact isStemChar_of_mem_repr h
        · rw [hMinus, ← hDigits] at h
          exact isStemChar_of_mem_repr h

/-- What stands in the brackets is the name of a register or of an area. -/
theorem isNameChar_of_mem_base? {a : Address} {b : String} (hb : a.base? = some b) {c : Char}
    (h : c ∈ b.toList) : isNameChar c = true := by
  unfold base? at hb
  cases hBase : a.base with
  | some r =>
    rw [hBase] at hb
    obtain rfl := Option.some.inj hb
    exact isNameChar_of_mem_abiName h
  | none =>
    rw [hBase] at hb
    -- without a base, it is an area
    have hArea : a.symbol.area? = some b := hb
    -- the areas are named by two letters each
    have hLetters : ∀ t ∈ ["SB", "FP", "SP"], t.toList.all isNameChar = true := by decide
    refine List.all_eq_true.mp (hLetters b ?_) c h
    cases hSymbol : a.symbol <;> rw [hSymbol] at hArea <;> simp_all [Symbol.area?]

/-- The operand as cut at its bracket. -/
def parts (a : Address) : List (List Char) :=
  a.stem.toList :: (a.base?.map fun b => b.toList ++ [')']).toList

/-- The text of an operand is its parts, with an opening bracket between them. -/
theorem toList_text (a : Address) : a.text.toList = ['('].intercalate a.parts := by
  unfold text parts
  cases a.base? with
  | none => simp
  | some b => simp [List.intercalate_cons_cons]

/-- No part has an opening bracket in it, so these tell the parts. -/
theorem bracket_not_mem_parts {a : Address} (ha : a.Named) : ∀ t ∈ a.parts, '(' ∉ t := by
  have hNo : ∀ {c : Char}, isStemChar c = true → c ≠ '(' := by
    rintro c hc rfl
    exact absurd hc (by decide)
  intro t ht hMem
  -- the stem has no bracket, and the second part only the one that closes
  obtain rfl | ht := List.mem_cons.mp ht
  · exact hNo (isStemChar_of_mem_stem ha hMem) rfl
  · obtain ⟨b, hb, rfl⟩ := Option.map_eq_some_iff.mp (Option.mem_toList.mp ht)
    obtain hMem | hMem := List.mem_append.mp hMem
    · exact hNo (isStemChar_of_isNameChar (isNameChar_of_mem_base? hb hMem)) rfl
    · exact absurd (List.mem_singleton.mp hMem) (by decide)

/-- The text of an operand has no comma and no blank in it. -/
theorem isOperandChar_of_mem_text {a : Address} (ha : a.Named) {c : Char}
    (h : c ∈ a.text.toList) : isOperandChar c = true := by
  -- around the stem there are only a register and its brackets
  have hStem : c ∈ a.stem.toList → isOperandChar c = true := fun hc =>
    isOperandChar_of_isStemChar (isStemChar_of_mem_stem ha hc)
  unfold text at h
  cases hBase : a.base? with
  | none =>
    rw [hBase] at h
    exact hStem h
  | some b =>
    rw [hBase] at h
    simp only [String.toList_append, List.mem_append] at h
    obtain ((h | h) | h) | h := h
    · exact hStem h
    · obtain rfl := List.mem_singleton.mp h
      decide
    · exact isOperandChar_of_isStemChar
        (isStemChar_of_isNameChar (isNameChar_of_mem_base? hBase h))
    · obtain rfl := List.mem_singleton.mp h
      decide

/-- **The text of an operand tells its parts**, up to the area of a symbol that stands by a base
register. -/
theorem alike_of_text_eq {a b : Address} (ha : a.Named) (hb : b.Named) (h : a.text = b.text) :
    a.Alike b := by
  have hText := congrArg String.toList h
  rw [toList_text, toList_text] at hText
  -- the opening bracket stands between the parts and nowhere else
  have hParts : a.parts = b.parts := intercalate_injective (List.cons_ne_nil _ _)
    (List.cons_ne_nil _ _) (bracket_not_mem_parts ha) (bracket_not_mem_parts hb) hText
  obtain ⟨hStem, hBrackets⟩ := List.cons.inj hParts
  obtain ⟨hName, hOffset⟩ := stem_injective ha hb hStem
  have hBase : a.base? = b.base? := by
    cases hA : a.base? <;> cases hB : b.base? <;>
      simp_all [← String.toList_inj]
  obtain ⟨hReg, hArea⟩ := base_of_base?_eq hName hBase
  exact ⟨hReg, hName, hOffset, hArea⟩

end Address

/-! ## Instructions -/

/-- An instruction without its operands. -/
inductive Opcode where
  | alu (op : AluOp)
  | aluImm (op : AluImmOp)
  | li
  | mov
  | la
  | load (width : Width)
  | store (width : Width)
  | zeroTest (test : ZeroTest)
  | branch (cond : Cond)
  | jump
  | ecall
  | undef
  | ret
deriving DecidableEq

namespace Opcode

/-- The name an opcode is listed by. -/
def mnemonic : Opcode → String
  | alu op => op.mnemonic
  | aluImm op => op.mnemonic
  | li => "LI"
  | mov => "MOV"
  | la => "LA"
  | load width => width.loadMnemonic
  | store width => width.storeMnemonic
  | zeroTest test => test.mnemonic
  | branch cond => cond.mnemonic
  | jump => "JMP"
  | ecall => "ECALL"
  | undef => "UNIMP"
  | ret => "RET"

/-- The number of operands. -/
def arity : Opcode → Nat
  | alu _ | aluImm _ => 3
  | li | mov | la | load _ | store _ | zeroTest _ | branch _ => 2
  | jump | ecall | undef | ret => 0

def isTransfer : Opcode → Bool
  | branch _ | jump => true
  | _ => false

def all : List Opcode :=
  [AluOp.add, .sub, .xor, .or, .and, .slt, .sltu].map alu ++
    [AluImmOp.addi, .xori, .ori, .andi, .slli].map aluImm ++ [li, mov, la] ++
    [Width.byte, .half, .word, .double].map load ++
    [Width.byte, .half, .word, .double].map store ++ [ZeroTest.seqz, .snez].map zeroTest ++
    [Cond.eq, .ne, .lt, .ltu, .ge, .geu].map branch ++ [jump, ecall, undef, ret]

/-- The list leaves out no opcode. -/
theorem mem_all (o : Opcode) : o ∈ all := by
  cases o with
  | alu op | aluImm op => cases op <;> decide
  | load width | store width => cases width <;> decide
  | zeroTest test => cases test <;> decide
  | branch cond => cases cond <;> decide
  | _ => decide

theorem isNameChar_of_mem_mnemonic {o : Opcode} {c : Char} (h : c ∈ o.mnemonic.toList) :
    isNameChar c = true := by
  have hAll : ∀ o ∈ all, o.mnemonic.toList.all isNameChar = true := by decide +kernel
  exact List.all_eq_true.mp (hAll o (mem_all o)) c h

/-- No two instructions share a mnemonic. -/
theorem mnemonic_injective {o o' : Opcode} (h : o.mnemonic = o'.mnemonic) : o = o' := by
  have hNodup : (all.map mnemonic).Nodup := by decide +kernel
  exact List.inj_on_of_nodup_map hNodup (mem_all o) (mem_all o') h

end Opcode

namespace Inst

def opcode : Inst → Opcode
  | alu op _ _ _ => .alu op
  | aluImm op _ _ _ => .aluImm op
  | li _ _ => .li
  | mov _ _ => .mov
  | la _ _ => .la
  | load width _ _ => .load width
  | store width _ _ => .store width
  | zeroTest test _ _ => .zeroTest test
  | branch cond _ _ => .branch cond
  | jump => .jump
  | ecall => .ecall
  | undef => .undef
  | ret => .ret

/-- The texts of the operands, in order. -/
def args : Inst → List String
  | alu _ rd rs1 rs2 => [rd.abiName, rs1.abiName, rs2.abiName]
  | aluImm _ rd rs1 imm => [rd.abiName, rs1.abiName, imm.toInt.repr]
  | li rd imm => [rd.abiName, imm.toInt.repr]
  | mov rd rs => [rd.abiName, rs.abiName]
  | la rd addr => [rd.abiName, addr.text]
  | load _ rd addr => [rd.abiName, addr.text]
  | store _ rs addr => [rs.abiName, addr.text]
  | zeroTest _ rd rs => [rd.abiName, rs.abiName]
  | branch _ rs1 rs2 => [rs1.abiName, rs2.abiName]
  | jump | ecall | undef | ret => []

/-- The memory operand, if there is one. -/
def address? : Inst → Option Address
  | la _ addr | load _ _ addr | store _ _ addr => some addr
  | _ => none

/-- A symbol in the instruction is an identifier. -/
def Named (i : Inst) : Prop := ∀ a ∈ i.address?, a.Named

instance (i : Inst) : Decidable i.Named :=
  inferInstanceAs (Decidable (∀ a ∈ i.address?, a.Named))

/-- The instructions agree in all but the area of a symbol that stands by a base register. -/
inductive Alike : Inst → Inst → Prop
  | same (i : Inst) : Alike i i
  | la (rd : Reg) {a b : Address} : a.Alike b → Alike (la rd a) (la rd b)
  | load (width : Width) (rd : Reg) {a b : Address} : a.Alike b →
      Alike (load width rd a) (load width rd b)
  | store (width : Width) (rs : Reg) {a b : Address} : a.Alike b →
      Alike (store width rs a) (store width rs b)

theorem length_args (i : Inst) : i.args.length = i.opcode.arity := by
  cases i <;> rfl

theorem isTransfer_opcode (i : Inst) : i.opcode.isTransfer = i.isTransfer := by
  cases i <;> rfl

/-- The operands of an instruction have no comma and no blank in them. -/
theorem isOperandChar_of_mem_args {i : Inst} (hi : i.Named) :
    ∀ arg ∈ i.args, ∀ c ∈ arg.toList, isOperandChar c = true := by
  -- operands are registers, numbers and addresses
  have hReg : ∀ r : Reg, ∀ c ∈ r.abiName.toList, isOperandChar c = true := fun r c hc =>
    isOperandChar_of_isStemChar (isStemChar_of_isNameChar (isNameChar_of_mem_abiName hc))
  have hImm : ∀ n : Int, ∀ c ∈ n.repr.toList, isOperandChar c = true := fun n c hc =>
    isOperandChar_of_isStemChar (isStemChar_of_mem_repr hc)
  have hAddr : ∀ a : Address, i.address? = some a → ∀ c ∈ a.text.toList, isOperandChar c = true :=
    fun a ha c hc => Address.isOperandChar_of_mem_text (hi a ha) hc
  cases i with
  | alu op rd rs1 rs2 =>
    simp only [args, List.forall_mem_cons]
    exact ⟨hReg rd, hReg rs1, hReg rs2, by simp⟩
  | aluImm op rd rs1 imm =>
    simp only [args, List.forall_mem_cons]
    exact ⟨hReg rd, hReg rs1, hImm _, by simp⟩
  | li rd imm =>
    simp only [args, List.forall_mem_cons]
    exact ⟨hReg rd, hImm _, by simp⟩
  | la r addr | load width r addr | store width r addr =>
    simp only [args, List.forall_mem_cons]
    exact ⟨hReg r, hAddr addr rfl, by simp⟩
  | mov r s | zeroTest test r s | branch cond r s =>
    simp only [args, List.forall_mem_cons]
    exact ⟨hReg r, hReg s, by simp⟩
  | _ => simp [args]

/-- **The operands tell the instruction**, among those with its mnemonic. -/
theorem alike_of_args_eq {i j : Inst} (hi : i.Named) (hj : j.Named)
    (hOpcode : i.opcode = j.opcode) (hArgs : i.args = j.args) : i.Alike j := by
  -- the opcodes leave one case for each form of instruction
  cases i <;> cases j <;> cases hOpcode
  all_goals
    simp only [args, List.cons.injEq, and_true, Reg.abiName_inj, int64_repr_inj] at hArgs
  case la.la rd a rd' b =>
    obtain ⟨rfl, hText⟩ := hArgs
    exact .la rd (Address.alike_of_text_eq (hi a rfl) (hj b rfl) hText)
  case load.load width rd a rd' b =>
    obtain ⟨rfl, hText⟩ := hArgs
    exact .load width rd (Address.alike_of_text_eq (hi a rfl) (hj b rfl) hText)
  case store.store width rs a rs' b =>
    obtain ⟨rfl, hText⟩ := hArgs
    exact .store width rs (Address.alike_of_text_eq (hi a rfl) (hj b rfl) hText)
  case alu.alu | aluImm.aluImm =>
    obtain ⟨rfl, rfl, rfl⟩ := hArgs
    exact .same _
  case li.li | mov.mov | zeroTest.zeroTest | branch.branch =>
    obtain ⟨rfl, rfl⟩ := hArgs
    exact .same _
  all_goals exact .same _

end Inst

end RiscvLowering
