import Mathlib.Data.List.Basic
import RiscvLowering.Json.Reader
import RiscvLowering.Json.Tree

/-!
# Scalars — reading back numbers and names

A reader `Reads` a value off a text when it takes exactly that text off the
front, whatever blanks stand before it and whatever follows, as long as what
follows does not go on with a numeral. This is what lets the readers of values
be put together to readers of containers without looking into them again.

Main results:

* `reads_int` — an integer of 64 bits is read back from its numeral.
* `Reads.map` — what a reader makes of what it has read is read with it.
-/

namespace RiscvLowering.Json

/-! ## Texts around a value -/

def Blanks (ws : List Char) : Prop := ∀ c ∈ ws, isBlank c = true

/-- A text that does not go on with a numeral that stands before it. -/
def Fence (rest : List Char) : Prop :=
  ∀ c ∈ rest.head?, c.isDigit = false ∧ c ≠ '.' ∧ c ≠ 'e' ∧ c ≠ 'E'

/-- A text that begins with neither a blank nor a closing bracket. -/
def Opens (cs : List Char) : Prop :=
  ∃ c ∈ cs.head?, isBlank c = false ∧ c ≠ ']' ∧ c ≠ '}'

/-- No blanks are blanks. -/
theorem blanks_nil : Blanks [] := fun _ h => absurd h List.not_mem_nil

/-- The end of the text ends a numeral. -/
theorem fence_nil : Fence [] := fun _ h => absurd h (by simp)

/-- Only the first character of what follows can go on with a numeral. -/
theorem fence_cons {c : Char} {cs : List Char}
    (h : c.isDigit = false ∧ c ≠ '.' ∧ c ≠ 'e' ∧ c ≠ 'E') : Fence (c :: cs) := by
  intro d hd
  obtain rfl := Option.some.inj hd
  exact h

theorem blanks_singleton {c : Char} (h : isBlank c = true) : Blanks [c] := by
  intro d hd
  obtain rfl := List.mem_singleton.mp hd
  exact h

/-- Blanks end a numeral, and where there are none what follows them has to. -/
theorem fence_append {ws cs : List Char} (hBlanks : Blanks ws) (hFence : Fence cs) :
    Fence (ws ++ cs) := by
  cases ws with
  | nil => exact hFence
  | cons c ws =>
    have hBlank : isBlank c = true := hBlanks c List.mem_cons_self
    simp only [isBlank, Bool.or_eq_true, decide_eq_true_eq] at hBlank
    apply fence_cons
    -- no blank goes on with a numeral
    rcases hBlank with ((rfl | rfl) | rfl) | rfl <;> decide

/-- Blanks in front are passed over. -/
theorem skipBlanks_append {ws cs : List Char} (h : Blanks ws) :
    skipBlanks (ws ++ cs) = skipBlanks cs :=
  List.dropWhile_append_of_pos h

theorem skipBlanks_cons {c : Char} {cs : List Char} (h : isBlank c = false) :
    skipBlanks (c :: cs) = c :: cs :=
  List.dropWhile_cons_of_neg (by simp [h])

/-- Blanks are passed over up to the first character that is none. -/
theorem skipBlanks_blanks_cons {ws cs : List Char} {c : Char} (hBlanks : Blanks ws)
    (h : isBlank c = false) : skipBlanks (ws ++ c :: cs) = c :: cs := by
  rw [skipBlanks_append hBlanks, skipBlanks_cons h]

/-- A text that opens has a first character, which is neither a blank nor a closing
bracket. -/
theorem Opens.eq_cons {cs : List Char} (h : Opens cs) :
    ∃ c tail, cs = c :: tail ∧ isBlank c = false ∧ ∀ frame : Frame, c ≠ frame.close := by
  obtain ⟨c, hHead, hBlank, hArray, hObject⟩ := h
  obtain ⟨tail, rfl⟩ := List.head?_eq_some_iff.mp hHead
  exact ⟨c, tail, rfl, hBlank, fun frame => by cases frame <;> assumption⟩

/-- They are passed over up to a value. -/
theorem skipBlanks_opens {ws cs : List Char} (hBlanks : Blanks ws) (hOpens : Opens cs)
    (rest : List Char) : skipBlanks (ws ++ (cs ++ rest)) = cs ++ rest := by
  obtain ⟨c, tail, rfl, hBlank, -⟩ := hOpens.eq_cons
  exact skipBlanks_blanks_cons hBlanks hBlank

/-- A literal text is taken off the text that begins with it. -/
theorem literal_append (ps cs : List Char) : literal ps (ps ++ cs) = .ok cs := by
  induction ps with
  | nil => rfl
  | cons p ps ih =>
    rw [List.cons_append, literal, if_pos rfl]
    exact ih

/-- A mark is taken off together with the blanks in front of it. -/
theorem punctuation_blanks {ws cs : List Char} {mark : Char} (hBlanks : Blanks ws)
    (h : isBlank mark = false) : punctuation mark (ws ++ mark :: cs) = .ok cs := by
  rw [punctuation, skipBlanks_blanks_cons hBlanks h]
  exact literal_append [mark] cs

/-- The reader takes a value off the front of any text that begins with `cs`. -/
structure Reads {α : Type} (read : Reader α) (a : α) (cs : List Char) : Prop where
  opens : Opens cs
  reads : ∀ ws rest, Blanks ws → Fence rest → read (ws ++ (cs ++ rest)) = .ok (a, rest)

section Reads

variable {α β : Type} {read : Reader α} {a : α} {cs : List Char}

/-- A reader that passes over blanks need only be looked at behind them. -/
theorem reads_of_skipBlanks (hOpens : Opens cs)
    (h : ∀ text rest, skipBlanks text = cs ++ rest → Fence rest → read text = .ok (a, rest)) :
    Reads read a cs := by
  exact ⟨hOpens, fun ws rest hBlanks => h _ rest (skipBlanks_opens hBlanks hOpens rest)⟩

/-- What a reader makes of what it has read is read with it. -/
theorem Reads.map (g : α → β) (h : Reads read a cs) :
    Reads (fun cs => do let (a, cs) ← read cs; return (g a, cs)) (g a) cs := by
  refine ⟨h.opens, fun ws rest hBlanks hFence => ?_⟩
  simp only [h.reads ws rest hBlanks hFence, bind, Except.bind]
  rfl

/-- A text that is read is, between blanks, a whole text of its value. -/
theorem Reads.readAll_blanks (h : Reads read a cs) {ws ws' : List Char} (hBlanks : Blanks ws)
    (hBlanks' : Blanks ws') : Json.readAll read (String.ofList (ws ++ (cs ++ ws'))) = .ok a := by
  have hFence : Fence (ws' ++ []) := fence_append hBlanks' fence_nil
  have hEnd : skipBlanks (ws' ++ []) = [] := skipBlanks_append hBlanks'
  rw [List.append_nil] at hFence hEnd
  rw [Json.readAll, String.toList_ofList]
  simp only [h.reads ws ws' hBlanks hFence, hEnd, bind, Except.bind]
  rfl

/-- A text that is read is, alone, a whole text of its value. -/
theorem Reads.readAll (h : Reads read a cs) : readAll read (String.ofList cs) = .ok a := by
  simpa using h.readAll_blanks blanks_nil blanks_nil

end Reads

/-! ## Numerals -/

def IsDigits (ds : List Char) : Prop := ds ≠ [] ∧ ∀ c ∈ ds, c.isDigit = true

/-- Digits of which the first is 0 only if it stands alone. -/
def IsWhole (ds : List Char) : Prop := ds = ['0'] ∨ IsDigits ds ∧ ds.head? ≠ some '0'

namespace Numeral

variable {ds rest : List Char}

/-- A run of digits is taken up to where it stops. -/
theorem digits_isDigits (h : IsDigits ds) (hStop : ∀ c ∈ rest.head?, c.isDigit = false) :
    digits (ds ++ rest) = .ok (ds, rest) := by
  obtain ⟨hNonempty, hDigits⟩ := h
  cases ds with
  | nil => exact absurd rfl hNonempty
  | cons d ds =>
    -- what follows does not begin with a digit, so that nothing of it is taken
    have hEnd : rest.takeWhile Char.isDigit = [] ∧ rest.dropWhile Char.isDigit = rest := by
      cases rest with
      | nil => exact ⟨rfl, rfl⟩
      | cons c cs => simp [hStop c rfl]
    rw [List.cons_append, digits, if_pos (hDigits d List.mem_cons_self), ← List.cons_append,
      List.takeWhile_append_of_pos hDigits, List.dropWhile_append_of_pos hDigits, hEnd.1, hEnd.2,
      List.append_nil]

/-- A digit is neither sign. -/
theorem sign_digit {d : Char} (h : d.isDigit = true) (plus : Bool) (cs : List Char) :
    sign plus (d :: cs) = (false, d :: cs) := by
  rw [sign]
  · rintro _ hMinus
    obtain ⟨rfl, -⟩ := List.cons.inj hMinus
    exact absurd h (by decide)
  · rintro _ hPlus
    obtain ⟨rfl, -⟩ := List.cons.inj hPlus
    exact absurd h (by decide)

/-- Digits have no sign in front. -/
theorem sign_isDigits (h : IsDigits ds) (plus : Bool) :
    sign plus (ds ++ rest) = (false, ds ++ rest) := by
  cases ds with
  | nil => exact absurd rfl h.1
  | cons d ds => exact sign_digit (h.2 d List.mem_cons_self) plus (ds ++ rest)

/-- The digits before a point are taken as a whole. -/
theorem wholePart_isWhole (h : IsWhole ds) (hStop : ∀ c ∈ rest.head?, c.isDigit = false) :
    wholePart (ds ++ rest) = .ok (ds, rest) := by
  -- a single 0 ends the whole part, whatever follows
  rcases h with rfl | ⟨hDigits, hHead⟩
  · cases rest with
    | nil => rfl
    | cons c cs => simp [wholePart, hStop c rfl]
  · -- a leading 0 is what `wholePart` looks out for
    rw [wholePart]
    · exact digits_isDigits hDigits hStop
    · intro c cs hZero
      cases ds with
      | nil => exact hDigits.1 rfl
      | cons d ds => exact hHead (congrArg some (List.cons.inj hZero).1)

/-- The first digit of a number that is not 0 is not 0. -/
theorem head?_toDigits_ne {n : Nat} (h : 0 < n) : (Nat.toDigits 10 n).head? ≠ some '0' := by
  have hDigit : ∀ m < 10, 0 < m → some (Nat.digitChar m) ≠ some '0' := by decide
  induction n using Nat.strongRecOn with
  | ind n ih =>
    -- the first digit is that of a tenth of the number, down to one digit
    rw [Nat.toDigits_eq_if (by omega)]
    split
    · rename_i hlt
      exact hDigit n hlt h
    · rw [List.head?_append_of_ne_nil _ Nat.toDigits_ne_nil]
      exact ih (n / 10) (by omega) (by omega)

/-- A number is written in digits. -/
theorem isDigit_toDigits {n : Nat} : ∀ c ∈ Nat.toDigits 10 n, c.isDigit = true :=
  fun _ hc => Nat.isDigit_of_mem_toDigits (by omega) (by omega) hc

/-- A number is written in at least one digit. -/
theorem isDigits_toDigits (n : Nat) : IsDigits (Nat.toDigits 10 n) :=
  ⟨Nat.toDigits_ne_nil, isDigit_toDigits⟩

/-- A number is written without a 0 in front, unless that is all of it. -/
theorem isWhole_toDigits (n : Nat) : IsWhole (Nat.toDigits 10 n) := by
  rcases Nat.eq_zero_or_pos n with rfl | hPos
  · exact .inl (Nat.toDigits_zero 10)
  · exact .inr ⟨isDigits_toDigits n, head?_toDigits_ne hPos⟩

/-- Where a numeral ends there is no fraction. -/
theorem fractionPart_fence (hFence : Fence rest) : fractionPart rest = .ok ([], rest) := by
  rw [fractionPart]
  rintro cs rfl
  exact (hFence '.' rfl).2.1 rfl

/-- Where a numeral ends there is no exponent. -/
theorem exponentPart_fence (hFence : Fence rest) : exponentPart rest = .ok (none, rest) := by
  cases rest with
  | nil => rfl
  | cons c cs =>
    obtain ⟨-, -, hSmall, hLarge⟩ := hFence c rfl
    rw [exponentPart, if_neg (by simp [hSmall, hLarge])]

/-- An integer is written with its sign, if it is below 0, and the digits of what it measures. -/
theorem repr_toList (i : Int) :
    i.repr.toList =
      if i < 0 then '-' :: Nat.toDigits 10 i.natAbs else Nat.toDigits 10 i.natAbs := by
  rw [Int.repr_eq_if]
  split
  · -- what stands behind the sign is the number itself, or its opposite
    rename_i hNonneg
    rw [if_neg (by omega), Nat.toList_repr, show i.toNat = i.natAbs by omega]
  · rename_i hNegative
    rw [if_pos (by omega), String.toList_append, Nat.toList_repr,
      show (-i).toNat = i.natAbs by omega]
    rfl

/-- The text of an integer is scanned as one. -/
theorem scan_repr (i : Int) (hFence : Fence rest) :
    scan (i.repr.toList ++ rest) =
      .ok (⟨decide (i < 0), Nat.toDigits 10 i.natAbs, [], none⟩, rest) := by
  -- the sign is taken off first
  have hSign : sign false (i.repr.toList ++ rest) =
      (decide (i < 0), Nat.toDigits 10 i.natAbs ++ rest) := by
    rw [repr_toList]
    by_cases h : i < 0
    · simp only [h, if_true, decide_true]
      rfl
    · simp only [h, if_false, decide_false]
      exact sign_isDigits (isDigits_toDigits _) false
  have hWhole : wholePart (Nat.toDigits 10 i.natAbs ++ rest) = .ok _ :=
    wholePart_isWhole (isWhole_toDigits _) fun c hc => (hFence c hc).1
  -- what follows is neither a fraction nor an exponent
  rw [scan, hSign]
  simp only [hWhole, fractionPart_fence hFence, exponentPart_fence hFence, bind, Except.bind, pure,
    Except.pure]

/-- An integer that fits 64 bits, with sign or without, is what its text stands for. -/
theorem value_repr {i : Int} (hLo : Int64.minValue.toInt ≤ i) (hHi : i < UInt64.size) :
    value ⟨decide (i < 0), Nat.toDigits 10 i.natAbs, [], none⟩ = .ok (.integer i) := by
  have hInteger :
      integer? ⟨decide (i < 0), Nat.toDigits 10 i.natAbs, [], none⟩ = some i := by
    rw [integer?, if_neg (by simp)]
    simp only [ofDigits, Nat.ofDigitChars_ten_toDigits, decide_eq_true_eq]
    split
    · -- below 0, the bound is that of signed words
      have hSame : -(i.natAbs : Int) = i := by omega
      rw [hSame, if_pos ⟨by omega, hLo⟩]
    · have hSame : (i.natAbs : Int) = i := by omega
      rw [if_pos (by omega), hSame]
  rw [value, hInteger]

end Numeral

/-- So an integer that fits 64 bits is read as a number that is itself. -/
theorem readNumber_repr {i : Int} {rest : List Char} (hLo : Int64.minValue.toInt ≤ i)
    (hHi : i < UInt64.size) (hFence : Fence rest) :
    readNumber (i.repr.toList ++ rest) = .ok (.integer i, rest) := by
  rw [readNumber]
  simp only [Numeral.scan_repr i hFence, Numeral.value_repr hLo hHi, bind, Except.bind, pure,
    Except.pure]

/-- The text of an integer begins with a sign or a digit. -/
theorem repr_eq_cons (i : Int) :
    ∃ c cs, i.repr.toList = c :: cs ∧ (c = '-' ∨ c.isDigit = true) := by
  rw [Numeral.repr_toList]
  split
  · exact ⟨_, _, rfl, .inl rfl⟩
  · -- no number has no digits
    cases hText : Nat.toDigits 10 i.natAbs with
    | nil => exact absurd hText Nat.toDigits_ne_nil
    | cons d ds =>
      have hFirst : d ∈ Nat.toDigits 10 i.natAbs := by
        rw [hText]
        exact List.mem_cons_self
      exact ⟨d, ds, rfl, .inr (Numeral.isDigit_toDigits d hFirst)⟩

/-- The text of an integer is not taken for null. -/
theorem head?_repr_ne (i : Int) : i.repr.toList.head? ≠ some 'n' := by
  obtain ⟨c, tl, hText, hFirst⟩ := repr_eq_cons i
  rw [hText, List.head?_cons]
  intro hEq
  obtain rfl := Option.some.inj hEq
  exact absurd hFirst (by decide)

/-- What begins a numeral is neither a blank nor a closing bracket. -/
theorem opens_of_numeral {c : Char} (h : c = '-' ∨ c.isDigit = true) :
    isBlank c = false ∧ c ≠ ']' ∧ c ≠ '}' := by
  rcases h with rfl | h
  · decide
  · -- no digit is any of these characters
    refine ⟨?_, ?_, ?_⟩
    · rw [isBlank, Bool.or_eq_false_iff, Bool.or_eq_false_iff, Bool.or_eq_false_iff]
      refine ⟨⟨⟨?_, ?_⟩, ?_⟩, ?_⟩ <;> refine decide_eq_false ?_ <;> rintro rfl <;>
        exact absurd h (by decide)
    all_goals
      rintro rfl
      exact absurd h (by decide)

/-- **An integer of 64 bits is read back from its numeral.** -/
theorem reads_int {lo hi i : Int} (hRange : lo ≤ i ∧ i ≤ hi) (hLo : Int64.minValue.toInt ≤ lo)
    (hHi : hi < UInt64.size) : Reads (readInt lo hi) i i.repr.toList := by
  obtain ⟨c, tl, hText, hFirst⟩ := repr_eq_cons i
  have hOpens := opens_of_numeral hFirst
  rw [hText]
  refine reads_of_skipBlanks ⟨c, rfl, hOpens⟩ ?_
  intro text rest hSkip hFence
  have hNumber : readNumber (c :: (tl ++ rest)) = .ok (.integer i, rest) := by
    rw [← List.cons_append, ← hText]
    exact readNumber_repr (by omega) (by omega) hFence
  -- its first character says that a number follows, and the number is in range
  rw [readInt, hSkip, List.cons_append]
  simp only [if_pos hFirst, hNumber, bind, Except.bind]
  rw [if_pos hRange]
  rfl

/-- A word of 32 bits is read back from its numeral. -/
theorem reads_uint32 (n : UInt32) : Reads readUInt32 n (Int.repr n.toNat).toList := by
  have hLt := n.toNat_lt
  have hInt : Reads (readInt 0 0xFFFFFFFF) n.toNat (Int.repr n.toNat).toList :=
    reads_int (by omega) (by decide) (by decide)
  have h := hInt.map fun i => UInt32.ofNat i.toNat
  rwa [Int.toNat_natCast, UInt32.ofNat_toNat] at h

/-- A word of 64 bits without sign is read back from its numeral. -/
theorem reads_uint64 (n : UInt64) : Reads readUInt64 n (Int.repr n.toNat).toList := by
  have hLt := n.toNat_lt
  have hInt : Reads (readInt 0 0xFFFFFFFFFFFFFFFF) n.toNat (Int.repr n.toNat).toList :=
    reads_int (by omega) (by decide) (by decide)
  have h := hInt.map fun i => UInt64.ofNat i.toNat
  rwa [Int.toNat_natCast, UInt64.ofNat_toNat] at h

/-- A word of 64 bits with sign is read back from its numeral. -/
theorem reads_int64 (n : Int64) : Reads readInt64 n n.toInt.repr.toList := by
  have hInt : Reads (readInt Int64.minValue.toInt Int64.maxValue.toInt) n.toInt
      n.toInt.repr.toList :=
    reads_int ⟨n.minValue_le_toInt, n.toInt_le⟩ (Int.le_refl _) (by decide)
  have h := hInt.map Int64.ofInt
  rwa [Int64.ofInt_toInt] at h

/-- A register is read back from its number. -/
theorem reads_reg (r : Reg) : Reads readReg r (Int.repr r.number.val).toList := by
  have hLt := r.number.isLt
  -- the number is read in a wider range than that of registers, which is checked after it
  have hInt : Reads (readInt 0 255) r.number.val (Int.repr r.number.val).toList :=
    reads_int (by omega) (by decide) (by decide)
  refine ⟨hInt.opens, fun ws rest hBlanks hFence => ?_⟩
  simp only [readReg, hInt.reads ws rest hBlanks hFence, bind, Except.bind, Int.toNat_natCast,
    Reg.ofNat_number]
  rfl

/-! ## Strings -/

/-- A digit to the base 16 is read back. -/
theorem hexValue?_hexDigit : ∀ n < 16, hexValue? (hexDigit n) = some n := by
  decide

/-- A character that ends no string and begins no escape is written as itself. -/
theorem escape_eq_self {c : Char} (hQuote : c ≠ '"') (hSlash : c ≠ '\\')
    (hPrintable : ¬c.toNat < 0x20) : escape c = [c] := by
  have hControl : ∀ d : Char, d.toNat < 0x20 → c ≠ d := by
    rintro d hd rfl
    exact hPrintable hd
  rw [escape, if_neg hQuote, if_neg hSlash, if_neg (hControl _ (by decide)),
    if_neg (hControl _ (by decide)), if_neg (hControl _ (by decide)),
    if_neg (hControl _ (by decide)), if_neg (hControl _ (by decide)), if_neg hPrintable]

/-- A string with what follows is a quote, the characters, a quote, and what follows. -/
theorem quote_append (s : String) (rest : List Char) :
    quote s ++ rest = '"' :: (s.toList.flatMap escape ++ '"' :: rest) := by
  rw [quote, List.cons_append, List.cons_append, List.append_assoc, List.singleton_append]

/-- Digits are written as themselves. -/
theorem flatMap_escape_digits {ds : List Char} (h : ∀ c ∈ ds, c.isDigit = true) :
    ds.flatMap escape = ds := by
  induction ds with
  | nil => rfl
  | cons d ds ih =>
    obtain ⟨hFirst, hRest⟩ := List.forall_mem_cons.mp h
    -- digits are no control characters, and neither the quote nor the backslash
    have hPrintable : ¬d.toNat < 0x20 := by
      have hLe := (Char.isDigit_iff_toNat.mp hFirst).1
      simp only [Char.reduceToNat] at hLe
      omega
    have hSelf : escape d = [d] := by
      refine escape_eq_self ?_ ?_ hPrintable <;> rintro rfl <;> exact absurd hFirst (by decide)
    rw [List.flatMap_cons, hSelf, ih hRest, List.singleton_append]

/-- A string begins with a quote. -/
theorem opens_quote (s : String) : Opens (quote s) := ⟨'"', rfl, by decide⟩

/-! ## Names and absent values -/

/-- A truth value is read back from its word. -/
theorem reads_bool (b : Bool) : Reads readBool b (boolChars b) := by
  cases b with
  | true =>
    refine reads_of_skipBlanks ⟨'t', rfl, by decide⟩ fun text rest hSkip _ => ?_
    rw [readBool, hSkip]
    rfl
  | false =>
    refine reads_of_skipBlanks ⟨'f', rfl, by decide⟩ fun text rest hSkip _ => ?_
    rw [readBool, hSkip]
    rfl

section Nullable

variable {α : Type} {read : Reader α}

/-- An absent value is read back from its word. -/
theorem reads_null : Reads (readNullable read) none "null".toList := by
  refine reads_of_skipBlanks ⟨'n', rfl, by decide⟩ fun text rest hSkip _ => ?_
  rw [readNullable, hSkip]
  rfl

/-- A value whose text is not taken for null is read where null is allowed. -/
theorem Reads.nullable {a : α} {cs : List Char} (h : Reads read a cs)
    (hNotNull : cs.head? ≠ some 'n') : Reads (readNullable read) (some a) cs := by
  refine reads_of_skipBlanks h.opens fun text rest hSkip hFence => ?_
  have hRead := h.reads [] rest blanks_nil hFence
  rw [List.nil_append] at hRead
  rw [readNullable, hSkip]
  split
  · rename_i heq
    -- the text would begin as null does
    obtain ⟨c, hHead, -⟩ := h.opens
    have hFirst := congrArg List.head? heq
    rw [List.head?_append, hHead] at hFirst
    rw [hHead] at hNotNull
    exact absurd hFirst hNotNull
  · rw [hRead]
    rfl

end Nullable

end RiscvLowering.Json
