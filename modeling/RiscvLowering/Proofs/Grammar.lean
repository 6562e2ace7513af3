import RiscvLowering.Json.Record
import RiscvLowering.Proofs.Basic
import RiscvLowering.Proofs.Scalars

/-!
# Grammar — the texts that are JSON

The grammar of JSON, said of texts alone: a text is a string if it is a sequence of
characters and escapes between quotes, a number if it has the shape of one, a
container if texts stand in it with commas between them, and so on. Blanks may
stand between any two tokens. The text of a value begins and ends with a token.

* `Quotes` — the texts of a string; `IsString` those of any, in which halves of
  pairs may stand alone.
* `IsNumeral` — the texts of numbers, of any magnitude.
* `Encloses` — the texts of a container, by the texts in it.
* `WellFormed` — the texts of values.

Main results:

* `QuotesIn.unquoteFrom` — a string is read off each of its texts.
* `quotes_quote` — what is written for a string is a text of it.
* `IsNumeral.scan` — a number is passed over.
-/

namespace RiscvLowering.Json

/-! ## Strings -/

/-- Four hexadecimal digits, in either case, that write a number. -/
inductive HexUnit : Nat → List Char → Prop
  | mk {a b c d : Char} {i j k l : Nat} : hexValue? a = some i → hexValue? b = some j →
      hexValue? c = some k → hexValue? d = some l →
      HexUnit (((i * 16 + j) * 16 + k) * 16 + l) [a, b, c, d]

/-- A text that stands for a character in a string: the character itself, an escape
of one letter, or one by its units. If units have to be `paired`, a half of a pair
does not stand alone. -/
inductive CharText (paired : Bool) : Char → List Char → Prop
  | self {c : Char} : c ≠ '"' → c ≠ '\\' → 0x20 ≤ c.toNat → CharText paired c [c]
  | letter {c letter : Char} : letterEscape? letter = some c → CharText paired c ['\\', letter]
  | unit {u : Nat} {ds : List Char} : HexUnit u ds →
      (paired = true → isLowHalf u = false ∧ isHighHalf u = false) →
      CharText paired (Char.ofNat u) ('\\' :: 'u' :: ds)
  | pair {high low : Nat} {ds ds' : List Char} : paired = true → HexUnit high ds →
      isHighHalf high = true → HexUnit low ds' → isLowHalf low = true →
      CharText paired (ofHalves high low) ('\\' :: 'u' :: (ds ++ '\\' :: 'u' :: ds'))

/-- The text of a string, by the texts of its characters. -/
def QuotesIn (paired : Bool) (s : String) (cs : List Char) : Prop :=
  ∃ texts, List.Forall₂ (CharText paired) s.toList texts ∧ cs = '"' :: (texts.flatten ++ ['"'])

/-- A text of the string. -/
def Quotes (s : String) (cs : List Char) : Prop := QuotesIn true s cs

/-- The text of some string, in which halves of pairs may stand alone. -/
def IsString (cs : List Char) : Prop := ∃ s, QuotesIn false s cs

/-- Four digits that write a number are read as it. -/
theorem HexUnit.hexUnit {u : Nat} {ds : List Char} (h : HexUnit u ds) (rest : List Char) :
    hexUnit (ds ++ rest) = .ok (u, rest) := by
  cases h with
  | mk ha hb hc hd =>
    show Json.hexUnit (_ :: _ :: _ :: _ :: rest) = _
    rw [Json.hexUnit]
    simp only [ha, hb, hc, hd]

/-- The text of a character is read as that character. -/
theorem CharText.readEscape {paired : Bool} {c : Char} {tail : List Char}
    (h : CharText paired c ('\\' :: tail)) (rest : List Char) :
    readEscape paired (tail ++ rest) = .ok (c, rest) := by
  generalize hText : '\\' :: tail = text at h
  cases h with
  | self _ hSlash => exact absurd (List.cons.inj hText).1.symm hSlash
  | @letter _ letter hLetter =>
    obtain ⟨-, rfl⟩ := List.cons.inj hText
    -- the letter of a unit is none of an escape of one letter
    have hNot : letter ≠ 'u' := by
      rintro rfl
      simp [letterEscape?] at hLetter
    rw [List.singleton_append, Json.readEscape]
    · simp only [hLetter]
    · exact hNot
  | unit hUnit hHalf =>
    obtain ⟨-, rfl⟩ := List.cons.inj hText
    rw [List.cons_append, Json.readEscape]
    simp only [hUnit.hexUnit, ok_bind]
    -- where halves of pairs may stand alone, any unit is a character
    cases paired with
    | false => rfl
    | true =>
      obtain ⟨hLow, hHigh⟩ := hHalf rfl
      simp only [hLow, hHigh]
      rfl
  | @pair high low ds ds' hPaired hHigh hIsHigh hLow hIsLow =>
    obtain ⟨-, rfl⟩ := List.cons.inj hText
    subst hPaired
    -- no unit is both halves of a pair
    have hNotLow : isLowHalf high = false := by
      simp only [isHighHalf, isLowHalf, Bool.and_eq_true, decide_eq_true_eq] at hIsHigh ⊢
      rw [decide_eq_false (by omega), Bool.false_and]
    have hSecond : secondHalf high ('\\' :: 'u' :: (ds' ++ rest)) =
        .ok (ofHalves high low, rest) := by
      rw [secondHalf]
      simp only [hLow.hexUnit, ok_bind, hIsLow]
      rfl
    rw [List.cons_append, List.append_assoc, Json.readEscape]
    simp only [hHigh.hexUnit, ok_bind, hNotLow, hIsHigh]
    exact hSecond

/-- What a character is written as stands for it. -/
theorem charText_escape (c : Char) : CharText true c (escape c) := by
  by_cases hLetter : c = '"' ∨ c = '\\' ∨ c = '\x08' ∨ c = '\x0c' ∨ c = '\n' ∨ c = '\r' ∨ c = '\t'
  · -- the seven characters that have an escape of one letter
    rcases hLetter with rfl | rfl | rfl | rfl | rfl | rfl | rfl <;> exact .letter rfl
  · simp only [not_or] at hLetter
    obtain ⟨hQuote, hSlash, hBack, hFeed, hLine, hReturn, hTab⟩ := hLetter
    by_cases hControl : c.toNat < 0x20
    · -- the two last digits write the code, which is half of no pair
      have hCode : ((0 * 16 + 0) * 16 + c.toNat / 16) * 16 + c.toNat % 16 = c.toNat := by omega
      have hZero : hexValue? '0' = some 0 := by decide
      have hUnit : HexUnit _ ['0', '0', hexDigit (c.toNat / 16), hexDigit (c.toNat % 16)] :=
        .mk hZero hZero (hexValue?_hexDigit (c.toNat / 16) (by omega))
          (hexValue?_hexDigit (c.toNat % 16) (by omega))
      rw [hCode] at hUnit
      have hHalf : isLowHalf c.toNat = false ∧ isHighHalf c.toNat = false := by
        simp only [isLowHalf, isHighHalf, Bool.and_eq_false_iff, decide_eq_false_iff_not]
        omega
      have hText : CharText true _ _ := .unit hUnit fun _ => hHalf
      rw [Char.ofNat_toNat] at hText
      simpa only [escape, hQuote, hSlash, hBack, hFeed, hLine, hReturn, hTab, hControl, if_true,
        if_false] using hText
    · rw [escape_eq_self hQuote hSlash hControl]
      exact .self hQuote hSlash (by omega)

/-- What a string is written as is a text of it. -/
theorem quotes_quote (s : String) : Quotes s (quote s) := by
  refine ⟨s.toList.map escape, ?_, by rw [quote, List.flatMap_def, List.cons_append]⟩
  rw [List.forall₂_map_right_iff, List.forall₂_same]
  exact fun c _ => charText_escape c

/-- The text of a character begins an escape or is the character itself. -/
theorem CharText.cases_head {paired : Bool} {c : Char} {text : List Char}
    (h : CharText paired c text) :
    (∃ tail, text = '\\' :: tail) ∨ (text = [c] ∧ c ≠ '"' ∧ c ≠ '\\' ∧ 0x20 ≤ c.toNat) := by
  cases h with
  | self hQuote hSlash hPrintable => exact .inr ⟨rfl, hQuote, hSlash, hPrintable⟩
  | letter _ | unit _ _ | pair _ _ _ _ _ => exact .inl ⟨_, rfl⟩

/-- The text of a character adds that character. -/
theorem CharText.unquoteFrom {paired : Bool} {c : Char} {text : List Char}
    (h : CharText paired c text) (read rest : List Char) :
    unquoteFrom paired read (text ++ rest) = unquoteFrom paired (c :: read) rest := by
  rcases h.cases_head with ⟨tail, rfl⟩ | ⟨rfl, hQuote, hSlash, hPrintable⟩
  · rw [List.cons_append, unquoteFrom_backslash (h.readEscape rest)]
  · rw [List.singleton_append, Json.unquoteFrom]
    · rw [if_neg (by omega)]
    · exact hQuote
    · exact hSlash

/-- The texts of characters are read one after another, up to the closing quote. -/
theorem unquoteFrom_texts {paired : Bool} {cs : List Char} {texts : List (List Char)}
    (h : List.Forall₂ (CharText paired) cs texts) (read rest : List Char) :
    unquoteFrom paired read (texts.flatten ++ '"' :: rest) =
      .ok (String.ofList (read.reverse ++ cs), rest) := by
  -- by the characters still to come, whatever is read already
  induction h generalizing read with
  | nil => rw [List.flatten_nil, List.nil_append, unquoteFrom, List.append_nil]
  | cons hFirst _ ih =>
    rw [List.flatten_cons, List.append_assoc, hFirst.unquoteFrom, ih, List.reverse_cons,
      List.append_assoc, List.singleton_append]

/-- **A string is read off each of its texts**, from behind the opening quote. -/
theorem QuotesIn.unquoteFrom {paired : Bool} {s : String} {cs : List Char}
    (h : QuotesIn paired s cs) :
    ∃ body, cs = '"' :: body ∧ ∀ rest, unquoteFrom paired [] (body ++ rest) = .ok (s, rest) := by
  obtain ⟨texts, hTexts, rfl⟩ := h
  refine ⟨_, rfl, fun rest => ?_⟩
  rw [List.append_assoc, List.singleton_append, unquoteFrom_texts hTexts, List.reverse_nil,
    List.nil_append, String.ofList_toList]

/-! ## Numbers -/

def IsFraction (cs : List Char) : Prop := cs = [] ∨ ∃ ds, cs = '.' :: ds ∧ IsDigits ds

def IsExponent (cs : List Char) : Prop :=
  cs = [] ∨ ∃ e sign ds, cs = e :: (sign ++ ds) ∧ (e = 'e' ∨ e = 'E') ∧
    (sign = [] ∨ sign = ['+'] ∨ sign = ['-']) ∧ IsDigits ds

/-- The text of a number, of any magnitude. -/
def IsNumeral (cs : List Char) : Prop :=
  ∃ sign whole fraction exponent, cs = sign ++ (whole ++ (fraction ++ exponent)) ∧
    (sign = [] ∨ sign = ['-']) ∧ IsWhole whole ∧ IsFraction fraction ∧ IsExponent exponent

namespace Numeral

variable {cs ds rest : List Char}

/-- What ends a numeral is no digit. -/
theorem not_digit_of_fence (h : Fence rest) : ∀ c ∈ rest.head?, c.isDigit = false :=
  fun c hc => (h c hc).1

/-- An exponent is taken as a whole, with its sign. -/
theorem exponentPart_isExponent (h : IsExponent cs) (hFence : Fence rest) :
    ∃ exponent, exponentPart (cs ++ rest) = .ok (exponent, rest) := by
  rcases h with rfl | ⟨e, plus, ds, rfl, hE, hPlus, hDigits⟩
  · exact ⟨none, exponentPart_fence hFence⟩
  · -- the mark, then a sign or none, then digits up to the end
    have hRun := digits_isDigits hDigits (not_digit_of_fence hFence)
    have hSign : ∃ negative, sign true (plus ++ ds ++ rest) = (negative, ds ++ rest) := by
      rcases hPlus with rfl | rfl | rfl
      · exact ⟨false, sign_isDigits hDigits true⟩
      · exact ⟨false, rfl⟩
      · exact ⟨true, rfl⟩
    obtain ⟨negative, hSign⟩ := hSign
    refine ⟨some (negative, ds), ?_⟩
    rw [List.cons_append, exponentPart, if_pos hE, hSign]
    simp only [hRun, ok_bind]
    rfl

/-- An exponent, or what stands behind the number, stops the digits in front. -/
theorem stops_exponent (h : IsExponent cs) (hFence : Fence rest) :
    ∀ c ∈ (cs ++ rest).head?, c.isDigit = false ∧ c ≠ '.' := by
  rcases h with rfl | ⟨e, plus, ds, rfl, hE, -, -⟩
  · exact fun c hc => ⟨(hFence c hc).1, (hFence c hc).2.1⟩
  · rintro c hc
    obtain rfl := Option.some.inj hc
    rcases hE with rfl | rfl <;> decide

/-- A fraction is taken as a whole, with its point. -/
theorem fractionPart_isFraction (h : IsFraction cs)
    (hStop : ∀ c ∈ rest.head?, c.isDigit = false ∧ c ≠ '.') :
    ∃ fraction, fractionPart (cs ++ rest) = .ok (fraction, rest) := by
  rcases h with rfl | ⟨ds, rfl, hDigits⟩
  · refine ⟨[], ?_⟩
    rw [List.nil_append, fractionPart]
    rintro cs rfl
    exact (hStop '.' rfl).2 rfl
  · exact ⟨ds, digits_isDigits hDigits fun c hc => (hStop c hc).1⟩

/-- A fraction, or what stands behind it, stops the digits in front. -/
theorem stops_fraction (h : IsFraction cs) (hStop : ∀ c ∈ rest.head?, c.isDigit = false ∧ c ≠ '.') :
    ∀ c ∈ (cs ++ rest).head?, c.isDigit = false := by
  rcases h with rfl | ⟨ds, rfl, -⟩
  · exact fun c hc => (hStop c hc).1
  · rintro c hc
    obtain rfl := Option.some.inj hc
    decide

/-- The first digit of a whole part. -/
theorem isWhole_cons (h : IsWhole cs) : ∃ d ds, cs = d :: ds ∧ d.isDigit = true := by
  rcases h with rfl | ⟨⟨hNonempty, hDigits⟩, -⟩
  · exact ⟨'0', [], rfl, by decide⟩
  · cases cs with
    | nil => exact absurd rfl hNonempty
    | cons d ds => exact ⟨d, ds, rfl, hDigits d List.mem_cons_self⟩

end Numeral

/-- **A number is scanned from each of its texts**, whatever its magnitude. -/
theorem IsNumeral.scan {cs rest : List Char} (h : IsNumeral cs) (hFence : Fence rest) :
    ∃ n, Numeral.scan (cs ++ rest) = .ok (n, rest) := by
  obtain ⟨sign, whole, fraction, exponent, rfl, hSign, hWhole, hFraction, hExponent⟩ := h
  -- from the back, as each part stops the digits of the one in front of it
  have hAfterFraction := Numeral.stops_exponent hExponent hFence
  have hAfterWhole := Numeral.stops_fraction hFraction hAfterFraction
  obtain ⟨e, hScanExponent⟩ := Numeral.exponentPart_isExponent hExponent hFence
  obtain ⟨f, hScanFraction⟩ := Numeral.fractionPart_isFraction hFraction hAfterFraction
  have hScanWhole := Numeral.wholePart_isWhole hWhole hAfterWhole
  -- a numeral has no plus in front, so what is no minus is a digit
  have hScanSign : ∃ negative, Numeral.sign false
      (sign ++ (whole ++ (fraction ++ (exponent ++ rest)))) =
      (negative, whole ++ (fraction ++ (exponent ++ rest))) := by
    rcases hSign with rfl | rfl
    · obtain ⟨d, ds, rfl, hDigit⟩ := Numeral.isWhole_cons hWhole
      exact ⟨false, Numeral.sign_digit hDigit false _⟩
    · exact ⟨true, rfl⟩
  obtain ⟨negative, hScanSign⟩ := hScanSign
  refine ⟨⟨negative, whole, f, e⟩, ?_⟩
  rw [Numeral.scan]
  simp only [List.append_assoc, hScanSign, hScanWhole, hScanFraction, hScanExponent, ok_bind]
  rfl

/-- The text of a number begins with a sign or a digit. -/
theorem IsNumeral.eq_cons {cs : List Char} (h : IsNumeral cs) :
    ∃ c tail, cs = c :: tail ∧ (c = '-' ∨ c.isDigit = true) := by
  obtain ⟨sign, whole, fraction, exponent, rfl, rfl | rfl, hWhole, -, -⟩ := h
  · obtain ⟨d, ds, rfl, hDigit⟩ := Numeral.isWhole_cons hWhole
    exact ⟨d, _, rfl, .inr hDigit⟩
  · exact ⟨'-', _, rfl, .inl rfl⟩

/-! ## Containers -/

def Frame.opening : Frame → Char
  | array => '['
  | object => '{'

/-- What stands between a bracket or a member and the next member. -/
inductive Separates : Bool → List Char → Prop
  | first {ws : List Char} : Blanks ws → Separates true ws
  | comma {ws ws' : List Char} : Blanks ws → Blanks ws' → Separates false (ws ++ ',' :: ws')

/-- What follows the opening bracket of a container, or a text in it, up to behind
the closing bracket. -/
inductive Items (frame : Frame) : Bool → List (List Char) → List Char → Prop
  | close {first : Bool} {ws : List Char} : Blanks ws → Items frame first [] (ws ++ [frame.close])
  | item {first : Bool} {sep text cs : List Char} {texts : List (List Char)} :
      Separates first sep → Items frame false texts cs →
      Items frame first (text :: texts) (sep ++ (text ++ cs))

/-- The text of a container in which the texts stand. -/
def Encloses (frame : Frame) (texts : List (List Char)) (cs : List Char) : Prop :=
  ∃ body, cs = frame.opening :: body ∧ Items frame true texts body

/-- The text of a member of an object: a key, a colon and a value. -/
inductive Member (key : List Char → Prop) (value : List Char) : List Char → Prop
  | mk {name ws ws' : List Char} : key name → Blanks ws → Blanks ws' →
      Member key value (name ++ (ws ++ ':' :: (ws' ++ value)))

section Turns

variable {frame : Frame} {first : Bool} {ws sep cs rest : List Char}

/-- Behind blanks, the closing bracket ends a container. -/
theorem nextMember_close (hBlanks : Blanks ws) :
    nextMember frame first (ws ++ frame.close :: rest) = .ok (.closed rest) := by
  have hSkip : skipBlanks (ws ++ frame.close :: rest) = frame.close :: rest :=
    skipBlanks_blanks_cons hBlanks (by cases frame <;> rfl)
  rw [nextMember, hSkip]
  exact if_pos rfl

/-- Behind its separator a member is found, as its first character neither closes the container nor
is a comma. -/
theorem nextMember_member (hSep : Separates first sep) (hOpens : Opens cs) :
    nextMember frame first (sep ++ (cs ++ rest)) = .ok (.member (cs ++ rest)) := by
  obtain ⟨c, tail, rfl, hBlank, hClose⟩ := hOpens.eq_cons
  -- in front of the first member there are blanks, of others a comma besides
  cases hSep with
  | first hBlanks =>
    have hSkip : skipBlanks (sep ++ (c :: tail ++ rest)) = c :: (tail ++ rest) :=
      skipBlanks_blanks_cons hBlanks hBlank
    rw [nextMember, hSkip]
    simp only [if_neg (hClose frame), if_true]
    rfl
  | @comma ws ws' hBlanks hBlanks' =>
    have hComma : ',' ≠ frame.close := by cases frame <;> decide
    have hSkip : skipBlanks (ws ++ ',' :: ws' ++ (c :: tail ++ rest)) =
        ',' :: (ws' ++ c :: (tail ++ rest)) := by
      rw [List.append_assoc]
      exact skipBlanks_blanks_cons hBlanks (by decide)
    have hSkip' : skipBlanks (ws' ++ c :: (tail ++ rest)) = c :: (tail ++ rest) :=
      skipBlanks_blanks_cons hBlanks' hBlank
    rw [nextMember, hSkip]
    simp only [if_neg hComma, hSkip', if_neg (hClose frame), if_true, Bool.false_eq_true, if_false]
    rfl

end Turns

/-- A container starts with its opening bracket. -/
theorem Encloses.opens {frame : Frame} {texts : List (List Char)} {cs : List Char}
    (h : Encloses frame texts cs) : Opens cs := by
  obtain ⟨body, rfl, -⟩ := h
  exact ⟨_, rfl, by cases frame <;> decide⟩

/-- A spelled string starts with its quote. -/
theorem QuotesIn.opens {paired : Bool} {s : String} {cs : List Char} (h : QuotesIn paired s cs) :
    Opens cs := by
  obtain ⟨texts, -, rfl⟩ := h
  exact ⟨'"', rfl, by decide⟩

/-- A member starts with what its key starts with. -/
theorem Member.opens {key : List Char → Prop} {value text : List Char} (h : Member key value text)
    (hKey : ∀ name, key name → Opens name) : Opens text := by
  cases h with
  | mk hName _ _ =>
    obtain ⟨c, hHead, hOpens⟩ := hKey _ hName
    exact ⟨c, by rw [List.head?_append, hHead]; rfl, hOpens⟩

/-- A number that stands in a container does not go on behind its text. -/
theorem Items.fence {frame : Frame} {texts : List (List Char)} {cs : List Char}
    (h : Items frame false texts cs) (rest : List Char) : Fence (cs ++ rest) := by
  -- next comes the closing bracket or a comma, and no number has either
  cases h with
  | close hBlanks =>
    rw [List.append_assoc]
    exact fence_append hBlanks (fence_cons (by cases frame <;> decide))
  | item hSep _ =>
    cases hSep with
    | comma hBlanks _ =>
      rw [List.append_assoc, List.append_assoc]
      exact fence_append hBlanks (fence_cons (by decide))

/-- Each text takes a character, as there is a comma in front or a bracket in the end. -/
theorem Items.length_le {frame : Frame} {first : Bool} {texts : List (List Char)} {cs : List Char}
    (h : Items frame first texts cs) : texts.length + (!first).toNat ≤ cs.length := by
  -- the first text has no comma in front, so the closing bracket counts for it
  induction h with
  | close => cases ‹Bool› <;> simp
  | item hSep _ ih =>
    simp only [Bool.not_false, Bool.toNat_true] at ih
    simp only [List.length_cons, List.length_append]
    cases hSep with
    | first => simp only [Bool.not_true, Bool.toNat_false]; omega
    | comma =>
      simp only [Bool.not_false, Bool.toNat_true, List.length_append, List.length_cons]
      omega

/-- The texts in an object that has one member. -/
theorem Encloses.singleton {frame : Frame} {text cs : List Char} (h : Encloses frame [text] cs) :
    ∃ ws ws', Blanks ws ∧ Blanks ws' ∧
      cs = frame.opening :: (ws ++ (text ++ (ws' ++ [frame.close]))) := by
  obtain ⟨body, rfl, hItems⟩ := h
  cases hItems with
  | item hSep hRest =>
    cases hSep with
    | first hBlanks =>
      cases hRest with
      | close hBlanks' => exact ⟨_, _, hBlanks, hBlanks', rfl⟩

/-! ## Values -/

/-- The text of a value, at any depth. -/
inductive WellFormed : List Char → Prop
  | literal {cs : List Char} : cs = "null".toList ∨ cs = "true".toList ∨ cs = "false".toList →
      WellFormed cs
  | number {cs : List Char} : IsNumeral cs → WellFormed cs
  | string {cs : List Char} : IsString cs → WellFormed cs
  | array {texts : List (List Char)} {cs : List Char} : (∀ text ∈ texts, WellFormed text) →
      Encloses .array texts cs → WellFormed cs
  | object {values texts : List (List Char)} {cs : List Char} :
      (∀ value ∈ values, WellFormed value) →
      (∀ text ∈ texts, ∃ value ∈ values, Member IsString value text) →
      Encloses .object texts cs → WellFormed cs

/-- Each kind of value starts with a character of its own, and none of them is a bracket that closes
or a comma. -/
theorem WellFormed.opens {cs : List Char} (h : WellFormed cs) : Opens cs := by
  -- containers and strings bring their own proof of it
  cases h with
  | literal h =>
    rcases h with rfl | rfl | rfl
    · exact ⟨'n', rfl, by decide⟩
    · exact ⟨'t', rfl, by decide⟩
    · exact ⟨'f', rfl, by decide⟩
  | number h =>
    obtain ⟨c, tail, rfl, hFirst⟩ := h.eq_cons
    exact ⟨c, rfl, opens_of_numeral hFirst⟩
  | string h =>
    obtain ⟨s, h⟩ := h
    exact h.opens
  | array _ h => exact h.opens
  | object _ _ h => exact h.opens

end RiscvLowering.Json
