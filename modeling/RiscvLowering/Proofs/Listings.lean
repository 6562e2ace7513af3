import Mathlib.Data.List.Forall2
import RiscvLowering.Proofs.Operands
import RiscvLowering.Proofs.Tables

/-!
# Listings — reading a listing back

A listing is cut at the ends of its lines, and a line at its blanks. The words
between them are few of a kind: a mnemonic, operands each with a comma behind it
if something follows, a target behind an arrow, and a remark. No word holds a
blank, so that two lines with the same text have the same words, and the words
tell the row. The rows in turn tell the code and both of its tables.

Main results:

* `Row.alike_of_words_eq` — the words of a line tell the row.
* `text_injective` — the text of a listing tells its name and its rows.
* `Func.listing_unambiguous` — the listing of a lowered function tells its name, its
  tables and its code, but for the area of a symbol that stands by a base register.
-/

namespace RiscvLowering

/-! ## Lines -/

namespace Listing

/-- Operands as words: a comma ends each that something follows. -/
def operandWords (follows : Bool) : List String → List (List Char)
  | [] => []
  | [arg] => [if follows then arg.toList ++ [','] else arg.toList]
  | arg :: arg' :: args => (arg.toList ++ [',']) :: operandWords follows (arg' :: args)

/-- The words of a target: an arrow and the name of the block. -/
def targetWords : Option BlockId → List (List Char)
  | none => []
  | some b => [['-', '>'], b.name.toList]

/-- The words of a remark, of which the first are empty for the blanks in front of it. -/
def remarkWords (l : Line) : List (List Char) :=
  if l.isKnown then [[], [], [], [';'], "line".toList, l.number.toNat.repr.toList] else []

/-- The words of as many operands tell these, and what follows. -/
theorem operandWords_injective {follows : Bool} {as bs : List String} {rs ss : List (List Char)}
    (hLength : as.length = bs.length)
    (h : operandWords follows as ++ rs = operandWords follows bs ++ ss) : as = bs ∧ rs = ss := by
  induction as generalizing bs with
  | nil =>
    obtain rfl := List.length_eq_zero_iff.mp hLength.symm
    exact ⟨rfl, h⟩
  | cons a as ih =>
    -- the last operand has a comma behind it only if something follows
    match as, bs, hLength with
    | [], [b], _ =>
      obtain ⟨hFirst, hRest⟩ := List.cons.inj h
      have hText : a.toList = b.toList := by
        cases follows with
        | false => exact hFirst
        | true => exact List.append_cancel_right hFirst
      exact ⟨by rw [String.toList_inj.mp hText], hRest⟩
    | a' :: as, b :: b' :: bs, hLength =>
      obtain ⟨hFirst, hRest⟩ := List.cons.inj h
      obtain ⟨hArgs, hEnd⟩ := ih (Nat.succ.inj hLength) hRest
      have hText : a.toList = b.toList := List.append_cancel_right hFirst
      exact ⟨by rw [String.toList_inj.mp hText, hArgs], hEnd⟩

/-- The words of operands are their texts, with commas. -/
theorem mem_operandWords {follows : Bool} {args : List String} {w : List Char} {c : Char}
    (hw : w ∈ operandWords follows args) (hc : c ∈ w) : c = ',' ∨ ∃ arg ∈ args, c ∈ arg.toList := by
  fun_induction operandWords follows args with
  | case1 => simp at hw
  | case2 arg =>
    obtain rfl := List.mem_singleton.mp hw
    -- the last one may have a comma, and all others have one
    split at hc
    · obtain hc | hc := List.mem_append.mp hc
      · exact .inr ⟨arg, by simp, hc⟩
      · exact .inl (List.mem_singleton.mp hc)
    · exact .inr ⟨arg, by simp, hc⟩
  | case3 arg arg' args ih =>
    obtain rfl | hw := List.mem_cons.mp hw
    · obtain hc | hc := List.mem_append.mp hc
      · exact .inr ⟨arg, by simp, hc⟩
      · exact .inl (List.mem_singleton.mp hc)
    · obtain hComma | ⟨arg'', hArg, hMem⟩ := ih hw
      · exact .inl hComma
      · exact .inr ⟨arg'', List.mem_cons_of_mem _ hArg, hMem⟩

/-- The words tell the target, if it is known whether there is one. -/
theorem targetWords_injective {t t' : Option BlockId} {rs ss : List (List Char)}
    (hSome : t.isSome = t'.isSome) (h : targetWords t ++ rs = targetWords t' ++ ss) :
    t = t' ∧ rs = ss := by
  -- there is a target on both sides, or on neither
  cases t <;> cases t' <;> cases hSome
  · exact ⟨rfl, h⟩
  · simp only [targetWords, List.cons_append, List.nil_append, List.cons.injEq, true_and] at h
    exact ⟨congrArg some (BlockId.name_inj.mp (String.toList_inj.mp h.1)), h.2⟩

theorem isWordChar_of_mem_targetWords {t : Option BlockId} :
    ∀ w ∈ targetWords t, ∀ c ∈ w, isWordChar c = true := by
  have hArrow : ['-', '>'].all isWordChar = true := by decide
  intro w hw c hc
  cases t with
  | none => simp [targetWords] at hw
  | some b =>
    obtain rfl | rfl := List.mem_pair.mp hw
    · exact List.all_eq_true.mp hArrow c hc
    · exact isWordChar_of_isNameChar (isNameChar_of_mem_blockName hc)

theorem isWordChar_of_mem_remarkWords {l : Line} :
    ∀ w ∈ remarkWords l, ∀ c ∈ w, isWordChar c = true := by
  have hFixed : ∀ w ∈ [[], [], [], [';'], "line".toList], w.all isWordChar = true := by decide
  intro w hw c hc
  unfold remarkWords at hw
  split at hw
  · -- all words but the number are fixed
    obtain hw | hw := List.mem_append.mp (show w ∈ [[], [], [], [';'], "line".toList] ++
      [l.number.toNat.repr.toList] from hw)
    · exact List.all_eq_true.mp (hFixed w hw) c hc
    · obtain rfl := List.mem_singleton.mp hw
      exact isWordChar_of_isNameChar (isNameChar_of_mem_natRepr hc)
  · simp at hw

/-- The words of a remark tell the line, as only the unknown one has none. -/
theorem remarkWords_injective {l l' : Line} (h : remarkWords l = remarkWords l') : l = l' := by
  unfold remarkWords at h
  obtain ⟨n⟩ := l
  obtain ⟨n'⟩ := l'
  -- a known line leaves words behind, and an unknown one none
  by_cases hKnown : (⟨n⟩ : Line).isKnown = true
  · rw [if_pos hKnown] at h
    split at h
    · simp only [List.cons.injEq, true_and, and_true, String.toList_inj, uint32_repr_inj] at h
      rw [h]
    · cases h
  · rw [if_neg hKnown] at h
    split at h
    · cases h
    · -- only line 0 is unknown
      rename_i hUnknown
      simp only [Line.isKnown, decide_eq_true_eq, not_not] at hKnown hUnknown
      rw [hKnown, hUnknown]

/-- Joined words go on with what is joined to them. -/
theorem intercalate_append_cons {mark : Char} {xs ys : List (List Char)} {y : List Char}
    (h : xs ≠ []) : [mark].intercalate (xs ++ y :: ys) =
      [mark].intercalate xs ++ mark :: [mark].intercalate (y :: ys) := by
  induction xs with
  | nil => exact absurd rfl h
  | cons x xs ih =>
    -- the mark behind the first word is there only if another follows
    cases xs with
    | nil => simp [List.intercalate_cons_cons]
    | cons x' xs =>
      rw [List.cons_append, List.cons_append, List.intercalate_cons_cons, ← List.cons_append,
        ih (List.cons_ne_nil _ _), List.intercalate_cons_cons]
      simp

theorem toList_remark {ws : List (List Char)} (hws : ws ≠ []) (l : Line) :
    [' '].intercalate (ws ++ remarkWords l) = [' '].intercalate ws ++ (Row.remark l).toList := by
  unfold remarkWords Row.remark
  split
  · rename_i hKnown
    rw [intercalate_append_cons hws, Line.text, if_pos hKnown]
    simp [List.intercalate_cons_cons]
  · simp

/-- An instruction and its target, as words. -/
theorem toList_instruction {i : Inst} {target : Option BlockId}
    (h : target.isSome = i.isTransfer) :
    [' '].intercalate (i.opcode.mnemonic.toList ::
        (operandWords target.isSome i.args ++ targetWords target)) =
      (i.text ++ target.elim "" (Row.arrow i)).toList := by
  -- only branches and jumps have a target, and then an arrow
  cases target with
  | none =>
    cases i <;> simp [Inst.text, Inst.operands, Inst.opcode, Opcode.mnemonic, Inst.args, operandWords,
      targetWords, List.intercalate_cons_cons]
  | some b =>
    cases i <;> simp [Inst.isTransfer] at h
    all_goals simp [Inst.text, Inst.operands, Inst.opcode, Opcode.mnemonic, Inst.args, operandWords,
      targetWords, List.intercalate_cons_cons, Row.arrow, Inst.isJump]

namespace Row

/-- The words of a row; those before the mnemonic are empty. -/
def words : Row → List (List Char)
  | label b => [b.name.toList ++ [':']]
  | code p target =>
    [] :: [] :: [] :: [] :: p.inst.opcode.mnemonic.toList ::
      (operandWords target.isSome p.inst.args ++ (targetWords target ++ remarkWords p.line))

/-- A row whose symbols are identifiers and which has a target where the instruction needs one. -/
def Clear : Row → Prop
  | label _ => True
  | code p target => p.inst.Named ∧ target.isSome = p.inst.isTransfer

/-- The rows agree in all but the area of a symbol that stands by a base register. -/
inductive Alike : Row → Row → Prop
  | label (b : BlockId) : Alike (label b) (label b)
  | code {p q : Placed} (target : Option BlockId) : p.inst.Alike q.inst → p.line = q.line →
      Alike (code p target) (code q target)

/-- A row is its words with blanks between them. -/
theorem toList_text {r : Row} (h : r.Clear) :
    (r.text true).toList = [' '].intercalate r.words ++ ['\n'] := by
  cases r with
  | label b => simp [text, words]
  | code p target =>
    -- the remark goes on after the words of the instruction
    have hInst := toList_instruction h.2
    have hRemark := toList_remark (List.cons_ne_nil p.inst.opcode.mnemonic.toList
      (operandWords target.isSome p.inst.args ++ targetWords target)) p.line
    rw [hInst, List.cons_append, List.append_assoc] at hRemark
    simp only [text, words, List.intercalate_cons_cons, hRemark]
    simp

/-- No word of a row has a blank or an end of line in it. -/
theorem isWordChar_of_mem_words {r : Row} (h : r.Clear) :
    ∀ w ∈ r.words, ∀ c ∈ w, isWordChar c = true := by
  intro w hw c hc
  cases r with
  | label b =>
    obtain rfl := List.mem_singleton.mp hw
    obtain hc | hc := List.mem_append.mp hc
    · exact isWordChar_of_isNameChar (isNameChar_of_mem_blockName hc)
    · obtain rfl := List.mem_singleton.mp hc
      decide
  | code p target =>
    simp only [words, List.mem_cons, List.mem_append] at hw
    -- blanks in front, a mnemonic, operands, a target and a remark
    obtain rfl | rfl | rfl | rfl | rfl | hw | hw | hw := hw
    · cases hc
    · cases hc
    · cases hc
    · cases hc
    · exact isWordChar_of_isNameChar (Opcode.isNameChar_of_mem_mnemonic hc)
    · obtain rfl | ⟨arg, hArg, hc⟩ := mem_operandWords hw hc
      · decide
      · exact isWordChar_of_isOperandChar (Inst.isOperandChar_of_mem_args h.1 arg hArg c hc)
    · exact isWordChar_of_mem_targetWords w hw c hc
    · exact isWordChar_of_mem_remarkWords w hw c hc

/-- **The words of a line tell the row,** up to what the operands leave open. -/
theorem alike_of_words_eq {r r' : Row} (h : r.Clear) (h' : r'.Clear) (hWords : r.words = r'.words) :
    r.Alike r' := by
  cases r with
  | label b =>
    cases r' with
    | label b' =>
      have hName := List.append_cancel_right (List.cons.inj hWords).1
      obtain rfl := BlockId.name_inj.mp (String.toList_inj.mp hName)
      exact .label b
    | code q target => simp [words] at hWords
  | code p target =>
    cases r' with
    | label b' => simp [words] at hWords
    | code q target' =>
      simp only [words, List.cons.injEq, true_and] at hWords
      obtain ⟨hMnemonic, hRest⟩ := hWords
      have hOpcode := Opcode.mnemonic_injective (String.toList_inj.mp hMnemonic)
      -- the opcode tells how many operands there are, and whether a target follows
      have hSome : target.isSome = target'.isSome := by
        rw [h.2, h'.2, ← Inst.isTransfer_opcode, ← Inst.isTransfer_opcode, hOpcode]
      have hLength : p.inst.args.length = q.inst.args.length := by
        rw [Inst.length_args, Inst.length_args, hOpcode]
      rw [hSome] at hRest
      obtain ⟨hArgs, hRest⟩ := operandWords_injective hLength hRest
      obtain ⟨rfl, hRemark⟩ := targetWords_injective hSome hRest
      exact .code target (Inst.alike_of_args_eq h.1 h'.1 hOpcode hArgs)
        (remarkWords_injective hRemark)

end Row

/-! ## Listings as lines -/

/-- The line of a row. -/
def Row.line (r : Row) : List Char := [' '].intercalate r.words

/-- The lines of a listing. -/
def lines (name : String) (rows : List Row) : List (List Char) :=
  (name.toList ++ [':']) :: rows.map Row.line

section Lines

variable {name name' : String} {rows rows' : List Row}

/-- No row goes over the end of its line. -/
theorem Row.newline_not_mem_line {r : Row} (h : r.Clear) : '\n' ∉ r.line := by
  intro hMem
  obtain hBlank | ⟨w, hw, hc⟩ := mem_intercalate hMem
  · exact absurd hBlank (by decide)
  · exact absurd (r.isWordChar_of_mem_words h w hw _ hc) (by decide)

/-- The text of a line tells the row, as blanks tell the words. -/
theorem Row.alike_of_line_eq {r r' : Row} (h : r.Clear) (h' : r'.Clear) (hLine : r.line = r'.line) :
    r.Alike r' := by
  have hNonempty : ∀ r : Row, r.words ≠ [] := by
    intro r
    cases r <;> simp [words]
  -- no word holds a blank, so the blanks are those between them
  have hBlank : ∀ {r : Row}, r.Clear → ∀ w ∈ r.words, ' ' ∉ w := by
    intro r h w hw hMem
    exact absurd (isWordChar_of_mem_words h w hw _ hMem) (by decide)
  exact alike_of_words_eq h h' (intercalate_injective (hNonempty r) (hNonempty r') (hBlank h)
    (hBlank h') hLine)

/-- The text of a listing is its lines with an end of line behind each. -/
theorem toList_text (hRows : ∀ r ∈ rows, r.Clear) :
    (text name rows true).toList = (lines name rows).flatMap (· ++ ['\n']) := by
  have hJoined : (String.join (rows.map (Row.text true))).toList =
      (rows.map Row.line).flatMap (· ++ ['\n']) := by
    rw [String.toList_join, List.flatMap_map, List.flatMap_map]
    exact List.flatMap_congr fun r hr => Row.toList_text (hRows r hr)
  rw [lines, List.flatMap_cons, ← hJoined, text]
  simp

/-- No line of a listing has the end of another in it. -/
theorem newline_not_mem_lines (hName : '\n' ∉ name.toList) (hRows : ∀ r ∈ rows, r.Clear) :
    ∀ l ∈ lines name rows, '\n' ∉ l := by
  intro l hl hMem
  obtain rfl | hl := List.mem_cons.mp hl
  · obtain hMem | hMem := List.mem_append.mp hMem
    · exact hName hMem
    · exact absurd (List.mem_singleton.mp hMem) (by decide)
  · obtain ⟨r, hr, rfl⟩ := List.mem_map.mp hl
    exact r.newline_not_mem_line (hRows r hr) hMem

/-- Rows with the same lines are alike, one by one. -/
theorem forall₂_alike_of_lines_eq (h : ∀ r ∈ rows, r.Clear) (h' : ∀ r ∈ rows', r.Clear)
    (hLines : rows.map Row.line = rows'.map Row.line) : List.Forall₂ Row.Alike rows rows' := by
  induction rows generalizing rows' with
  | nil =>
    obtain rfl := List.map_eq_nil_iff.mp hLines.symm
    exact .nil
  | cons r rows ih =>
    cases rows' with
    | nil => simp at hLines
    | cons r' rows' =>
      obtain ⟨hFirst, hRest⟩ := List.cons.inj hLines
      obtain ⟨hr, hRows⟩ := List.forall_mem_cons.mp h
      obtain ⟨hr', hRows'⟩ := List.forall_mem_cons.mp h'
      -- line by line
      exact .cons (Row.alike_of_line_eq hr hr' hFirst) (ih hRows hRows' hRest)

/-- **The text of a listing tells its name and its rows.** -/
theorem text_injective (hName : '\n' ∉ name.toList) (hName' : '\n' ∉ name'.toList)
    (hRows : ∀ r ∈ rows, r.Clear) (hRows' : ∀ r ∈ rows', r.Clear)
    (h : text name rows true = text name' rows' true) :
    name = name' ∧ List.Forall₂ Row.Alike rows rows' := by
  -- the text is cut into lines, and the first of them is the header
  have hText := congrArg String.toList h
  rw [toList_text hRows, toList_text hRows'] at hText
  have hLines := flatMap_append_injective (newline_not_mem_lines hName hRows)
    (newline_not_mem_lines hName' hRows') hText
  obtain ⟨hHeader, hRest⟩ := List.cons.inj hLines
  exact ⟨String.toList_inj.mp (List.append_cancel_right hHeader),
    forall₂_alike_of_lines_eq hRows hRows' hRest⟩

end Lines

/-! ## What rows tell of code and tables -/

/-- The starts of the blocks whose labels stand among some rows, the first instruction of which has
index `i`. -/
def startsOf (i : Nat) : List Row → List BlockStart
  | [] => []
  | .label b :: rows => ⟨b, i⟩ :: startsOf i rows
  | .code _ _ :: rows => startsOf (i + 1) rows

/-- The branches that have a target among some rows, the first instruction of which has index `i`. -/
def branchesOf (i : Nat) : List Row → List PendingBranch
  | [] => []
  | .label _ :: rows => branchesOf i rows
  | .code _ none :: rows => branchesOf (i + 1) rows
  | .code _ (some b) :: rows => ⟨i, b⟩ :: branchesOf (i + 1) rows

def Row.placed? : Row → Option Placed
  | label _ => none
  | code p _ => some p

end Listing

/-- The instructions are alike and stand for the same line. -/
def Placed.Alike (p q : Placed) : Prop := p.inst.Alike q.inst ∧ p.line = q.line

namespace Listing

section Tables

variable {rows rows' : List Row} {branches : List PendingBranch} {starts : List BlockStart}
  {code : List Placed} {i : Nat}

/-- Rows that are alike tell the same starts. -/
theorem startsOf_congr (h : List.Forall₂ Row.Alike rows rows') :
    startsOf i rows = startsOf i rows' := by
  induction h generalizing i with
  | nil => rfl
  | cons hRow _ ih =>
    cases hRow with
    | label b => rw [startsOf, startsOf, ih]
    | code target _ _ => rw [startsOf, startsOf, ih]

theorem branchesOf_congr (h : List.Forall₂ Row.Alike rows rows') :
    branchesOf i rows = branchesOf i rows' := by
  induction h generalizing i with
  | nil => rfl
  | cons hRow _ ih =>
    cases hRow with
    | label b => rw [branchesOf, branchesOf, ih]
    | code target _ _ => cases target <;> rw [branchesOf, branchesOf, ih]

/-- Rows that are alike tell code that is alike. -/
theorem forall₂_placed (h : List.Forall₂ Row.Alike rows rows') :
    List.Forall₂ Placed.Alike (rows.filterMap Row.placed?) (rows'.filterMap Row.placed?) := by
  induction h with
  | nil => exact .nil
  | cons hRow _ ih =>
    cases hRow with
    | label b => exact ih
    | code target hInst hLine => exact .cons ⟨hInst, hLine⟩ ih

/-- The rows of a listing show all of its code, in order. -/
theorem placed_rowsFrom : (rowsFrom branches i starts code).filterMap Row.placed? = code := by
  -- labels show no code
  have hLabels : ∀ l : List BlockStart,
      (l.map (Row.label ·.block)).filterMap Row.placed? = [] := by
    intro l
    simp [List.filterMap_map, Row.placed?]
  induction code generalizing i starts with
  | nil => exact hLabels starts
  | cons p code ih =>
    rw [rowsFrom, List.filterMap_append, hLabels, List.nil_append, List.filterMap_cons]
    simp only [Row.placed?, ih]

/-- Labels in front of rows are starts at the place of the first of these. -/
theorem startsOf_map_label (starts : List BlockStart) (rows : List Row) :
    startsOf i (starts.map (Row.label ·.block) ++ rows) =
      starts.map (⟨·.block, i⟩) ++ startsOf i rows := by
  induction starts with
  | nil => rfl
  | cons s starts ih => rw [List.map_cons, List.cons_append, startsOf, ih]; rfl

/-- Labels at their own place tell the starts they are for. -/
theorem startsOf_labels (h : ∀ s ∈ starts, s.index = i) (rows : List Row) :
    startsOf i (starts.map (Row.label ·.block) ++ rows) = starts ++ startsOf i rows := by
  have hSame : starts.map (⟨·.block, i⟩) = starts :=
    (List.map_congr_left fun s hs => by rw [← h s hs]; rfl).trans (List.map_id starts)
  rw [startsOf_map_label, hSame]

theorem branchesOf_labels (starts : List BlockStart) (rows : List Row) :
    branchesOf i (starts.map (Row.label ·.block) ++ rows) = branchesOf i rows := by
  induction starts with
  | nil => rfl
  | cons s starts ih => rw [List.map_cons, List.cons_append, branchesOf, ih]

/-- Behind the starts that are reached come those that are not. -/
theorem lt_of_mem_dropWhile (hSorted : starts.Pairwise (·.index ≤ ·.index)) :
    ∀ s ∈ starts.dropWhile (·.index ≤ i), i < s.index := by
  induction starts with
  | nil => simp
  | cons t starts ih =>
    obtain ⟨hFirst, hRest⟩ := List.pairwise_cons.mp hSorted
    -- the first is reached, or it and all behind it are not
    by_cases ht : t.index ≤ i
    · rw [List.dropWhile_cons_of_pos (by simpa using ht)]
      exact ih hRest
    · rw [List.dropWhile_cons_of_neg (by simpa using ht)]
      intro s hs
      obtain rfl | hs := List.mem_cons.mp hs
      · omega
      · have := hFirst s hs
        omega

/-- **The labels of rows tell the starts**, if these ascend and each is the place of an instruction. -/
theorem startsOf_rowsFrom (hSorted : starts.Pairwise (·.index ≤ ·.index))
    (hFrom : ∀ s ∈ starts, i ≤ s.index) (hTo : ∀ s ∈ starts, s.index < i + code.length) :
    startsOf i (rowsFrom branches i starts code) = starts := by
  induction code generalizing i starts with
  | nil =>
    cases starts with
    | nil => rfl
    | cons s starts =>
      have := hFrom s List.mem_cons_self
      have := hTo s List.mem_cons_self
      simp only [List.length_nil] at this
      omega
  | cons p code ih =>
    -- the labels here are those of the starts at this index
    have hHere : ∀ s ∈ starts.takeWhile (·.index ≤ i), s.index = i := by
      intro s hs
      have hLe : s.index ≤ i := by simpa using List.all_eq_true.mp List.all_takeWhile s hs
      have := hFrom s (List.takeWhile_subset _ hs)
      omega
    have hLater := lt_of_mem_dropWhile (i := i) hSorted
    have hSub : (starts.dropWhile (·.index ≤ i)).Sublist starts := List.dropWhile_sublist _
    have hRest : startsOf (i + 1) (rowsFrom branches (i + 1) (starts.dropWhile (·.index ≤ i)) code) =
        starts.dropWhile (·.index ≤ i) := by
      refine ih (hSorted.sublist hSub) hLater fun s hs => ?_
      have := hTo s (hSub.subset hs)
      simp only [List.length_cons] at this
      omega
    rw [rowsFrom, startsOf_labels hHere, startsOf, hRest, List.takeWhile_append_dropWhile]

/-- A branch is the target of its place, unless a later one is. -/
theorem target?_cons (q : PendingBranch) :
    target? (q :: branches) i =
      (target? branches i).or (if q.index = i then some q.target else none) := by
  rw [target?, target?, List.reverse_cons, List.find?_append, Option.map_or, List.find?_singleton]
  by_cases h : q.index = i <;> simp [h]

theorem isSome_target?_iff : (target? branches i).isSome = true ↔ i ∈ branches.map (·.index) := by
  rw [target?, Option.isSome_map, List.find?_isSome, List.mem_map]
  simp only [List.mem_reverse, decide_eq_true_eq]

/-- The branches from an index on are the one at the index, if there is one, and those behind it. -/
theorem filter_le_eq (hIncreasing : branches.Pairwise (·.index < ·.index)) :
    branches.filter (i ≤ ·.index) =
      (target? branches i).toList.map (PendingBranch.mk i) ++ branches.filter (i + 1 ≤ ·.index) := by
  induction branches with
  | nil => rfl
  | cons q branches ih =>
    obtain ⟨hFirst, hRest⟩ := List.pairwise_cons.mp hIncreasing
    have ih := ih hRest
    -- none of the rest is at the index, if the first has reached it
    have hNone : i ≤ q.index → target? branches i = none := by
      intro hReached
      rw [← Option.not_isSome_iff_eq_none, isSome_target?_iff, List.mem_map]
      rintro ⟨r, hr, hIndex⟩
      have := hFirst r hr
      omega
    rcases Nat.lt_trichotomy q.index i with hlt | rfl | hgt
    · have hNot : ¬ i ≤ q.index ∧ ¬ i + 1 ≤ q.index ∧ q.index ≠ i := by omega
      simp only [target?_cons, List.filter_cons, hNot, ih, decide_false, Bool.false_eq_true, if_false,
        Option.or_none]
    · have hHere : q.index ≤ q.index ∧ ¬ q.index + 1 ≤ q.index := by omega
      simp only [target?_cons, List.filter_cons, hHere, hNone hHere.1, ih, decide_true, decide_false,
        Bool.false_eq_true, if_true, if_false, Option.none_or, Option.toList_none, Option.toList_some,
        List.map_nil, List.map_cons, List.nil_append, List.cons_append]
    · have hLater : i ≤ q.index ∧ i + 1 ≤ q.index ∧ q.index ≠ i := by omega
      simp only [target?_cons, List.filter_cons, hLater, hNone hLater.1, ih, decide_true, if_true,
        if_false, Option.none_or, Option.toList_none, List.map_nil, List.nil_append]

/-- **The targets of rows tell the branches**, if these increase and each is the place of an
instruction. -/
theorem branchesOf_rowsFrom (hIncreasing : branches.Pairwise (·.index < ·.index))
    (hTo : ∀ q ∈ branches, q.index < i + code.length) :
    branchesOf i (rowsFrom branches i starts code) = branches.filter (i ≤ ·.index) := by
  induction code generalizing i starts with
  | nil =>
    -- there is no instruction left for a branch to be at
    have hNone : branches.filter (i ≤ ·.index) = [] := by
      refine List.filter_eq_nil_iff.mpr fun q hq => ?_
      have := hTo q hq
      simp only [List.length_nil] at this
      simp only [decide_eq_true_eq]
      omega
    rw [hNone, rowsFrom, ← List.append_nil (starts.map _), branchesOf_labels]
    rfl
  | cons p code ih =>
    -- behind this instruction the rows tell the branches from the next index on
    have hRest : branchesOf (i + 1) (rowsFrom branches (i + 1) (starts.dropWhile (·.index ≤ i)) code) =
        branches.filter (i + 1 ≤ ·.index) := by
      refine ih fun q hq => ?_
      have := hTo q hq
      simp only [List.length_cons] at this
      omega
    rw [rowsFrom, branchesOf_labels, filter_le_eq hIncreasing]
    cases target? branches i with
    | none => rw [branchesOf, hRest]; rfl
    | some b => rw [branchesOf, hRest]; rfl

/-- The rows of a listing are clear, if its code is and targets stand at the branches and jumps. -/
theorem clear_of_mem_rowsFrom (h : ∀ k p, code[k]? = some p →
      p.inst.Named ∧ (target? branches (i + k)).isSome = p.inst.isTransfer) :
    ∀ r ∈ rowsFrom branches i starts code, r.Clear := by
  -- a label is always clear
  have hLabels : ∀ l : List BlockStart, ∀ r ∈ l.map (Row.label ·.block), r.Clear := by
    intro l r hr
    obtain ⟨s, -, rfl⟩ := List.mem_map.mp hr
    trivial
  induction code generalizing i starts with
  | nil => exact hLabels starts
  | cons p code ih =>
    intro r hr
    rw [rowsFrom, List.mem_append, List.mem_cons] at hr
    obtain hr | rfl | hr := hr
    · exact hLabels _ r hr
    · exact h 0 p rfl
    · refine ih (fun k q hq => ?_) r hr
      rw [Nat.add_assoc, Nat.add_comm 1 k]
      exact h (k + 1) q hq

end Tables

end Listing

/-! ## Listings of lowered functions -/

/-- The name of the function is a single line, and the symbols of its code are identifiers. -/
structure Output.Clear (out : Output) : Prop where
  name : '\n' ∉ out.name.toList
  symbols : ∀ p ∈ out.code, p.inst.Named

namespace Func

variable {f g : Func} {options options' : Options} {out out' : Output}

/-- The pending branches of a lowered function are among its code. -/
theorem branch_lt_length (h : (f.lower options).result = .ok out) :
    ∀ q ∈ out.branches, q.index < out.code.length := by
  intro q hq
  -- a pending branch is a branch or a jump of the code
  have hIndex : q.index ∈ transfers out.code := by
    rw [← map_index_branches_out h]
    exact List.mem_map_of_mem hq
  obtain ⟨p, hp, -⟩ := mem_transfers_iff.mp hIndex
  exact (List.getElem?_eq_some_iff.mp hp).1

/-- The rows of a lowered function show a target exactly where one is needed. -/
theorem clear_of_mem_rows (h : (f.lower options).result = .ok out) (hClear : out.Clear) :
    ∀ r ∈ Listing.rows out.code out.branches out.starts, r.Clear := by
  refine Listing.clear_of_mem_rowsFrom fun k p hp => ?_
  refine ⟨hClear.symbols p (List.mem_of_getElem? hp), ?_⟩
  rw [Bool.eq_iff_iff, Listing.isSome_target?_iff, map_index_branches_out h, Nat.zero_add,
    mem_transfers_iff, hp]
  simp

theorem startsOf_rows (h : (f.lower options).result = .ok out) :
    Listing.startsOf 0 (Listing.rows out.code out.branches out.starts) = out.starts := by
  refine Listing.startsOf_rowsFrom (starts_ascending h) (fun s _ => Nat.zero_le _) fun s hs => ?_
  rw [Nat.zero_add]
  exact start_lt_length h hs

theorem branchesOf_rows (h : (f.lower options).result = .ok out) :
    Listing.branchesOf 0 (Listing.rows out.code out.branches out.starts) = out.branches := by
  have hIncreasing := List.pairwise_map.mp (branches_increasing h)
  rw [Listing.rows, Listing.branchesOf_rowsFrom hIncreasing]
  · simp
  · simpa using branch_lt_length h

/-- **The listing of a lowered function is unambiguous.** If two functions are listed alike, with
source lines, they have the same name, the same starts of blocks and the same pending branches, and
their instructions agree one by one, each with its line, but for the area of a symbol that stands by
a base register. -/
theorem listing_unambiguous (hLower : (f.lower options).result = .ok out)
    (hLower' : (g.lower options').result = .ok out') (hClear : out.Clear) (hClear' : out'.Clear)
    (hListing : out.listing true = out'.listing true) :
    out.name = out'.name ∧ out.starts = out'.starts ∧ out.branches = out'.branches ∧
      List.Forall₂ Placed.Alike out.code out'.code := by
  -- the text tells the name and the rows
  obtain ⟨hName, hRows⟩ := Listing.text_injective hClear.name hClear'.name
    (clear_of_mem_rows hLower hClear) (clear_of_mem_rows hLower' hClear') hListing
  -- the rows tell both tables and the code
  have hStarts := Listing.startsOf_congr (i := 0) hRows
  have hBranches := Listing.branchesOf_congr (i := 0) hRows
  have hCode := Listing.forall₂_placed hRows
  rw [startsOf_rows hLower, startsOf_rows hLower'] at hStarts
  rw [branchesOf_rows hLower, branchesOf_rows hLower'] at hBranches
  rw [Listing.rows, Listing.rows, Listing.placed_rowsFrom, Listing.placed_rowsFrom] at hCode
  exact ⟨hName, hStarts, hBranches, hCode⟩

open Builder in
/-- Loads what a pointer leads to, off a symbol. -/
def fetch (aux : Aux) : Func := build "fetch" do
  let entry ← block .ret
  let mem ← value { block := entry, op := .initMem, ty := .mem }
  let ptr ← value { block := entry, op := .arg, ty := .ptr, reg := some .a1 }
  let _ ← value
    { block := entry, op := .movLoad, ty := Demo.int64, args := [ptr, mem], aux, auxInt := 8,
      line := ⟨2⟩, reg := some .a0 }

/-- What such a load is lowered to. -/
def fetched (symbol : Symbol) : Output where
  name := "fetch"
  code := [⟨.load .double .a0 ⟨some .a1, symbol, 8⟩, ⟨2⟩⟩, ⟨.ret, .unknown⟩]
  branches := []
  starts := [⟨0, 0⟩]
  gaps := []

/-- A global and a local by the same name are listed alike off the same register. -/
theorem listing_unambiguous_fetch :
    ((fetch (.global "x")).lower {}).result = .ok (fetched (.global "x")) ∧
    ((fetch (.auto { name := "x", varClass := .auto })).lower {}).result =
      .ok (fetched (.auto "x")) ∧
    (fetched (.global "x")).Clear ∧ (fetched (.auto "x")).Clear ∧
    (fetched (.global "x")).listing true = (fetched (.auto "x")).listing true ∧
    (fetched (.global "x")).code ≠ (fetched (.auto "x")).code ∧
    (fetched (.global "x")).name = (fetched (.auto "x")).name ∧
    (fetched (.global "x")).starts = (fetched (.auto "x")).starts ∧
    (fetched (.global "x")).branches = (fetched (.auto "x")).branches ∧
    List.Forall₂ Placed.Alike (fetched (.global "x")).code (fetched (.auto "x")).code := by
  have hGlobal : ((fetch (.global "x")).lower {}).result = .ok (fetched (.global "x")) := rfl
  have hLocal : ((fetch (.auto { name := "x", varClass := .auto })).lower {}).result =
      .ok (fetched (.auto "x")) := rfl
  have hClear : (fetched (.global "x")).Clear := ⟨by decide, by decide⟩
  have hClear' : (fetched (.auto "x")).Clear := ⟨by decide, by decide⟩
  -- the listing does not show the area of a symbol that stands by a base register
  have hListing : (fetched (.global "x")).listing true = (fetched (.auto "x")).listing true := by
    decide
  exact ⟨hGlobal, hLocal, hClear, hClear', hListing, by decide,
    listing_unambiguous hGlobal hLocal hClear hClear' hListing⟩

end Func

end RiscvLowering
