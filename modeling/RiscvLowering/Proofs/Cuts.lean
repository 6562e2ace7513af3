import RiscvLowering.Proofs.Scalars
import RiscvLowering.Ssa.Id

/-!
# Cuts — where the parts of a text end

A printed text is put together from parts: lines that each end in an end of line,
words with blanks between them, names, numerals and marks. The parts can be told
from the text again because each ends before something that is not in it. This
module says so for joined parts and for a part with what follows it, and names
the characters that numerals and names are made of.

Main results:

* `intercalate_injective`, `flatMap_cons_injective`, `flatMap_append_injective` — texts that are
  joined by a mark, or that each have one before or behind them, are told apart.
* `append_injective_of_stops` — a part is told from what follows, if that begins with
  something of another kind.
-/

namespace RiscvLowering

open Json

/-! ## Parts and marks -/

/-- Texts that are joined by a mark are told apart, if the mark is in none of them. -/
theorem intercalate_injective {mark : Char} {xs ys : List (List Char)} (hx : xs ≠ [])
    (hy : ys ≠ []) (hxs : ∀ x ∈ xs, mark ∉ x) (hys : ∀ y ∈ ys, mark ∉ y)
    (h : [mark].intercalate xs = [mark].intercalate ys) : xs = ys := by
  have hCut := congrArg (List.splitOn mark) h
  rwa [List.splitOn_intercalate mark hxs hx, List.splitOn_intercalate mark hys hy] at hCut

/-- Whatever stands in the joined text is a mark or stands in a part. -/
theorem mem_intercalate {mark c : Char} {xs : List (List Char)}
    (h : c ∈ [mark].intercalate xs) : c = mark ∨ ∃ x ∈ xs, c ∈ x := by
  induction xs with
  | nil => simp at h
  | cons x xs ih =>
    -- the last part has no mark behind it
    cases xs with
    | nil =>
      rw [List.intercalate_singleton] at h
      exact .inr ⟨x, by simp, h⟩
    | cons x' xs =>
      rw [List.intercalate_cons_cons, List.mem_append, List.mem_append] at h
      obtain (h | h) | h := h
      · exact .inr ⟨x, by simp, h⟩
      · exact .inl (List.mem_singleton.mp h)
      · obtain hMark | ⟨y, hy, hc⟩ := ih h
        · exact .inl hMark
        · exact .inr ⟨y, List.mem_cons_of_mem _ hy, hc⟩

/-- Behind the first of some joined texts, each of the others has the mark before it. -/
theorem intercalate_cons_eq (mark : Char) (x : List Char) (xs : List (List Char)) :
    [mark].intercalate (x :: xs) = x ++ xs.flatMap (mark :: ·) := by
  induction xs generalizing x with
  | nil => simp
  | cons y ys ih => rw [List.intercalate_cons_cons, ih, List.flatMap_cons]; simp

/-- Lines that each end in a mark, as texts that are joined by it. -/
theorem flatMap_eq_intercalate (mark : Char) (ls : List (List Char)) :
    ls.flatMap (· ++ [mark]) = [mark].intercalate (ls ++ [[]]) := by
  induction ls with
  | nil => simp
  | cons l ls ih =>
    rw [List.flatMap_cons, ih, List.cons_append, List.intercalate_cons_of_ne_nil (by simp)]

/-- Texts with a mark before each are told apart, if the mark is in none of them. -/
theorem flatMap_cons_injective {mark : Char} {xs ys : List (List Char)}
    (hxs : ∀ x ∈ xs, mark ∉ x) (hys : ∀ y ∈ ys, mark ∉ y)
    (h : xs.flatMap (mark :: ·) = ys.flatMap (mark :: ·)) : xs = ys := by
  -- an empty text in front makes them texts that the mark joins
  have hJoined : [mark].intercalate ([] :: xs) = [mark].intercalate ([] :: ys) := by
    rw [intercalate_cons_eq, intercalate_cons_eq, h]
  have hSame := intercalate_injective (List.cons_ne_nil _ _) (List.cons_ne_nil _ _)
    (List.forall_mem_cons.mpr ⟨List.not_mem_nil, hxs⟩)
    (List.forall_mem_cons.mpr ⟨List.not_mem_nil, hys⟩) hJoined
  exact List.tail_eq_of_cons_eq hSame

/-- Lines with a mark behind each are told apart, if the mark is in none of them. -/
theorem flatMap_append_injective {mark : Char} {xs ys : List (List Char)}
    (hxs : ∀ x ∈ xs, mark ∉ x) (hys : ∀ y ∈ ys, mark ∉ y)
    (h : xs.flatMap (· ++ [mark]) = ys.flatMap (· ++ [mark])) : xs = ys := by
  -- marks behind lines are marks between them, if an empty line ends the text
  have hEnd : ∀ zs : List (List Char), (∀ z ∈ zs, mark ∉ z) → ∀ z ∈ zs ++ [[]], mark ∉ z := by
    intro zs hzs z hz
    obtain hz | hz := List.mem_append.mp hz
    · exact hzs z hz
    · rw [List.mem_singleton.mp hz]
      exact List.not_mem_nil
  rw [flatMap_eq_intercalate, flatMap_eq_intercalate] at h
  exact List.append_cancel_right
    (intercalate_injective (by simp) (by simp) (hEnd xs hxs) (hEnd ys hys) h)

/-- A list of some kind of members is told from what follows, if that begins with another. -/
theorem append_injective_of_stops {α : Type} {p : α → Bool} {xs ys rs ss : List α}
    (hxs : ∀ c ∈ xs, p c = true) (hys : ∀ c ∈ ys, p c = true)
    (hrs : ∀ c ∈ rs.head?, p c = false) (hss : ∀ c ∈ ss.head?, p c = false)
    (h : xs ++ rs = ys ++ ss) : xs = ys ∧ rs = ss := by
  have hEnd : ∀ ts : List α, (∀ c ∈ ts.head?, p c = false) → ts.takeWhile p = [] := by
    intro ts hts
    cases ts with
    | nil => rfl
    | cons t ts => simp [hts t rfl]
  -- both are what can be taken of that kind from the front
  have hFirst : xs = ys := by
    have hTaken := congrArg (List.takeWhile p) h
    rwa [List.takeWhile_append_of_pos hxs, List.takeWhile_append_of_pos hys, hEnd rs hrs,
      hEnd ss hss, List.append_nil, List.append_nil] at hTaken
  subst hFirst
  exact ⟨rfl, List.append_cancel_left h⟩

/-- A part without a mark is told from what follows the mark behind it. -/
theorem append_cons_injective {p : Char → Bool} {mark : Char} {xs ys rs ss : List Char}
    (hMark : p mark = false) (hxs : ∀ c ∈ xs, p c = true) (hys : ∀ c ∈ ys, p c = true)
    (h : xs ++ mark :: rs = ys ++ mark :: ss) : xs = ys ∧ rs = ss := by
  have hHead : ∀ ts : List Char, ∀ c ∈ (mark :: ts).head?, p c = false := by
    intro ts c hc
    obtain rfl := Option.some.inj hc
    exact hMark
  obtain ⟨hFirst, hRest⟩ := append_injective_of_stops hxs hys (hHead rs) (hHead ss) h
  exact ⟨hFirst, List.tail_eq_of_cons_eq hRest⟩

/-! ## Numerals and names -/

/-- A text is read as one thing only. -/
theorem Json.Reads.unique {α : Type} {read : Reader α} {a b : α} {cs : List Char}
    (ha : Reads read a cs) (hb : Reads read b cs) : a = b :=
  Except.ok.inj (ha.readAll.symm.trans hb.readAll)

/-- Offsets are told from their texts, as these are read back. -/
theorem int64_repr_inj {a b : Int64} : a.toInt.repr = b.toInt.repr ↔ a = b := by
  refine ⟨fun h => ?_, fun h => h ▸ rfl⟩
  -- a text is read as one number only
  have hb := reads_int64 b
  rw [← h] at hb
  exact (reads_int64 a).unique hb

/-- The digits of a number give it back. -/
theorem natRepr_inj {m n : Nat} : m.repr = n.repr ↔ m = n := by
  refine ⟨fun h => ?_, fun h => h ▸ rfl⟩
  have hDigits : Nat.toDigits 10 m = Nat.toDigits 10 n := by
    rw [← Nat.toList_repr, ← Nat.toList_repr, h]
  have hValue := congrArg (Nat.ofDigitChars 10 · 0) hDigits
  simpa only [Nat.ofDigitChars_ten_toDigits] using hValue

theorem uint32_repr_inj {a b : UInt32} : a.toNat.repr = b.toNat.repr ↔ a = b :=
  natRepr_inj.trans UInt32.toNat_inj

/-- Values are told from their names. -/
theorem ValueId.name_inj {a b : ValueId} : ValueId.name a = ValueId.name b ↔ a = b := by
  rw [ValueId.name, ValueId.name, String.append_right_inj, uint32_repr_inj]

theorem BlockId.name_inj {a b : BlockId} : BlockId.name a = BlockId.name b ↔ a = b := by
  rw [BlockId.name, BlockId.name, String.append_right_inj, uint32_repr_inj]

/-- Things are told by their names in order, if each is told by its name. -/
theorem map_name_injective {α : Type} {name : α → String} {xs ys : List α}
    (hName : ∀ {a b}, name a = name b ↔ a = b)
    (h : xs.map (fun a => (name a).toList) = ys.map fun a => (name a).toList) : xs = ys :=
  (List.map_inj_right fun _ _ hText => hName.mp (String.toList_inj.mp hText)).mp h

/-- The same for a thing that there may be. -/
theorem option_name_injective {α : Type} {name : α → String} {x y : Option α}
    (hName : ∀ {a b}, name a = name b ↔ a = b)
    (h : x.toList.map (fun a => (name a).toList) = y.toList.map fun a => (name a).toList) :
    x = y := by
  have hFirst := congrArg List.head? (map_name_injective hName h)
  rwa [Option.head?_toList, Option.head?_toList] at hFirst

/-- A character of a symbol's name: a letter, a digit, an underscore or a dot. Whatever is beyond
ASCII passes for a letter. -/
def isNameChar (c : Char) : Bool := c.isAlphanum || c = '_' || c = '.' || 128 ≤ c.toNat

theorem isNameChar_of_isDigit {c : Char} (h : c.isDigit = true) : isNameChar c = true := by
  simp [isNameChar, Char.isAlphanum, h]

/-- The text of an integer is made of digits, but for a minus sign. -/
theorem isDigit_or_of_mem_repr {n : Int} {c : Char} (h : c ∈ n.repr.toList) :
    c = '-' ∨ c.isDigit = true := by
  rw [Numeral.repr_toList] at h
  split at h
  · obtain rfl | h := List.mem_cons.mp h
    · exact .inl rfl
    · exact .inr (Numeral.isDigit_toDigits c h)
  · exact .inr (Numeral.isDigit_toDigits c h)

theorem isDigit_of_mem_natRepr {n : Nat} {c : Char} (h : c ∈ n.repr.toList) :
    c.isDigit = true := by
  rw [Nat.toList_repr] at h
  exact Numeral.isDigit_toDigits c h

theorem isNameChar_of_mem_natRepr {n : Nat} {c : Char} (h : c ∈ n.repr.toList) :
    isNameChar c = true :=
  isNameChar_of_isDigit (isDigit_of_mem_natRepr h)

/-- A name that is put together from a few letters and a number. -/
theorem isNameChar_of_mem_numbered {letters : String} {n : Nat} {c : Char}
    (hLetters : letters.toList.all isNameChar = true) (h : c ∈ (letters ++ n.repr).toList) :
    isNameChar c = true := by
  rw [String.toList_append, List.mem_append] at h
  obtain h | h := h
  · exact List.all_eq_true.mp hLetters c h
  · exact isNameChar_of_mem_natRepr h

theorem isNameChar_of_mem_valueName {id : ValueId} {c : Char} (h : c ∈ (ValueId.name id).toList) :
    isNameChar c = true :=
  isNameChar_of_mem_numbered (by decide) h

theorem isNameChar_of_mem_blockName {b : BlockId} {c : Char} (h : c ∈ (BlockId.name b).toList) :
    isNameChar c = true :=
  isNameChar_of_mem_numbered (by decide) h

end RiscvLowering
