import RiscvLowering.Proofs.Grammar

/-!
# Skipping — values that are passed over

The value of an unknown field is passed over step by step, with a stack of the
brackets that are open. Each value takes less steps than it has characters, so the
length of the text is fuel enough for any depth.

Main results:

* `skipLoop_items` — what is left of a container is passed over.
* `WellFormed.skipValue` — every well-formed value is passed over.
-/

namespace RiscvLowering.Json

/-- Goes on behind the head of a value: inside it, if it opened a bracket. -/
def skipFrom (fuel : Nat) (opened : List Frame) : Option Frame × List Char →
    Except Fault (List Char)
  | (some frame, cs) => skipLoop fuel (frame :: opened) .first cs
  | (none, cs) => skipLoop fuel opened .after cs

/-- The value that the text begins with is passed over, in less steps than it has
characters. -/
structure Skips (cs : List Char) : Prop where
  opens : Opens cs
  steps : ∃ n < cs.length, ∀ opened fuel rest, Fence rest → ∃ head,
    skipHead (cs ++ rest) = .ok head ∧
      skipFrom (n + fuel) opened head = skipLoop fuel opened .after rest

/-- So is a member of a container, with its key in an object. -/
structure SkipsIn (frame : Frame) (cs : List Char) : Prop where
  opens : Opens cs
  steps : ∃ n < cs.length, ∀ opened fuel ws rest, Blanks ws → Fence rest → ∃ head,
    skipMember (some frame) (ws ++ (cs ++ rest)) = .ok head ∧
      skipFrom (n + fuel) opened head = skipLoop fuel opened .after rest

variable {frame : Frame} {cs : List Char}

/-- A value that is no container takes no step but the first. -/
theorem Skips.of_scalar (hOpens : Opens cs)
    (h : ∀ rest, Fence rest → skipHead (cs ++ rest) = .ok (none, rest)) : Skips cs := by
  refine ⟨hOpens, 0, ?_, fun opened fuel rest hFence => ⟨_, h rest hFence, ?_⟩⟩
  · obtain ⟨c, tail, rfl, -⟩ := hOpens.eq_cons
    exact Nat.zero_lt_succ _
  · rw [Nat.zero_add, skipFrom]

/-- In an array a member is nothing but its value. -/
theorem Skips.in_array (h : Skips cs) : SkipsIn .array cs := by
  obtain ⟨n, hLt, hSteps⟩ := h.steps
  refine ⟨h.opens, n, hLt, fun opened fuel ws rest hBlanks hFence => ?_⟩
  obtain ⟨head, hHead, hGo⟩ := hSteps opened fuel rest hFence
  refine ⟨head, ?_, hGo⟩
  rw [← hHead]
  exact congrArg skipHead (skipBlanks_opens hBlanks h.opens rest)

/-- A string is passed over as it is unquoted, from its first quote to its last. -/
theorem IsString.skipString {key : List Char} (h : IsString key) :
    ∃ body, key = '"' :: body ∧ ∀ rest, skipString (body ++ rest) = .ok rest := by
  obtain ⟨s, h⟩ := h
  obtain ⟨body, rfl, hBody⟩ := h.unquoteFrom
  refine ⟨body, rfl, fun rest => ?_⟩
  rw [Json.skipString, hBody]
  rfl

/-- A string begins with its quote. -/
theorem IsString.opens {key : List Char} (h : IsString key) : Opens key := by
  obtain ⟨s, h⟩ := h
  exact h.opens

/-- In an object a member is a key, a colon and then its value. -/
theorem Skips.in_object {value : List Char} (h : Skips value) (hMember : Member IsString value cs) :
    SkipsIn .object cs := by
  have hOpens := hMember.opens fun _ => IsString.opens
  obtain ⟨n, hLt, hSteps⟩ := h.steps
  cases hMember with
  | @mk key ws₁ ws₂ hKey h₁ h₂ =>
    -- the key takes no step, so the steps are those of the value
    refine ⟨hOpens, n, ?_, fun opened fuel ws rest hBlanks hFence => ?_⟩
    · simp only [List.length_append, List.length_cons]
      omega
    · obtain ⟨body, rfl, hBody⟩ := hKey.skipString
      obtain ⟨head, hHead, hGo⟩ := hSteps opened fuel rest hFence
      refine ⟨head, ?_, hGo⟩
      -- the key and the colon, and then the value behind its blanks
      have hQuote : punctuation '"' (ws ++ '"' :: (body ++ (ws₁ ++ ':' :: (ws₂ ++
          (value ++ rest))))) = .ok _ := punctuation_blanks hBlanks (by decide)
      have hColon : punctuation ':' (ws₁ ++ ':' :: (ws₂ ++ (value ++ rest))) = .ok _ :=
        punctuation_blanks h₁ (by decide)
      rw [skipMember, skipKey]
      simp only [List.append_assoc, List.cons_append, hQuote, ok_bind, hBody, hColon,
        skipBlanks_opens h₂ h.opens rest]
      exact hHead

/-! ## Steps -/

section Steps

variable {opened : List Frame} {ahead : Ahead} {first : Bool} {ws sep text rest : List Char}
  {head : Option Frame × List Char} {fuel : Nat}

/-- A step that passes over a member goes on from its head. -/
theorem skipLoop_enter (hMore : opened ≠ [] ∨ ahead ≠ .after)
    (hStep : skipStep opened ahead text = enterMember opened cs)
    (hMember : skipMember opened.head? cs = .ok head) :
    skipLoop (fuel + 1) opened ahead text = skipFrom fuel opened head := by
  rw [skipLoop]
  · -- the bracket that the head may have opened is on the stack from here on
    rw [hStep, enterMember]
    simp only [hMember, ok_bind]
    obtain ⟨_ | frame, cs⟩ := head <;> rfl
  · rintro rfl rfl
    exact hMore.elim (absurd rfl) (absurd rfl)

/-- What is ahead behind a bracket or a member. -/
def Ahead.within (first : Bool) : Ahead := if first then .first else .after

/-- The closing bracket is passed over in one step. -/
theorem skipLoop_close (hBlanks : Blanks ws) :
    skipLoop (fuel + 1) (frame :: opened) (.within first) (ws ++ frame.close :: rest) =
      skipLoop fuel opened .after rest := by
  have hSkip : skipBlanks (ws ++ frame.close :: rest) = frame.close :: rest :=
    skipBlanks_blanks_cons hBlanks (by cases frame <;> rfl)
  have hComma : frame.close ≠ ',' := by cases frame <;> decide
  have hStep : skipStep (frame :: opened) (.within first) (ws ++ frame.close :: rest) =
      .ok (opened, .after, rest) := by
    -- a bracket may close right behind its opening, or behind a member
    cases first with
    | true => simp only [Ahead.within, if_true, skipStep, hSkip]
    | false =>
      simp only [Ahead.within, Bool.false_eq_true, if_false, skipStep, hSkip, if_neg hComma,
        if_true]
  rw [skipLoop]
  · rw [hStep]
  · intro h
    cases h

/-- In front of a member are blanks, and a comma unless it is the first. -/
theorem skipStep_separates (opened : List Frame) (hSep : Separates first sep) (hOpens : Opens cs)
    (rest : List Char) :
    ∃ ws, Blanks ws ∧ skipStep (frame :: opened) (.within first) (sep ++ (cs ++ rest)) =
      enterMember (frame :: opened) (ws ++ (cs ++ rest)) := by
  -- the first member is entered at once; before any other the comma is taken off
  cases hSep with
  | first hBlanks =>
    refine ⟨[], blanks_nil, ?_⟩
    have hSkip := skipBlanks_opens hBlanks hOpens rest
    obtain ⟨c, tail, rfl, -, hClose⟩ := hOpens.eq_cons
    rw [List.cons_append] at hSkip
    simp only [Ahead.within, if_true, skipStep, List.cons_append, hSkip, if_neg (hClose frame)]
    rfl
  | @comma ws ws' hBlanks hBlanks' =>
    refine ⟨ws', hBlanks', ?_⟩
    have hSkip : skipBlanks (ws ++ ',' :: ws' ++ (cs ++ rest)) = ',' :: (ws' ++ (cs ++ rest)) := by
      rw [List.append_assoc]
      exact skipBlanks_blanks_cons hBlanks (by decide)
    simp only [Ahead.within, Bool.false_eq_true, if_false, skipStep, hSkip, if_true]

end Steps

/-- **What is left of a container is passed over**, in no more steps than it has
characters. -/
theorem skipLoop_items {first : Bool} {texts : List (List Char)} {body : List Char}
    (hItems : Items frame first texts body) (hTexts : ∀ text ∈ texts, SkipsIn frame text) :
    ∃ n ≤ body.length, ∀ opened fuel rest,
      skipLoop (n + fuel) (frame :: opened) (.within first) (body ++ rest) =
        skipLoop fuel opened .after rest := by
  -- by the members still to come: a step for each, the steps inside it, and one for the bracket
  induction hItems with
  | close hBlanks =>
    refine ⟨1, by simp, fun opened fuel rest => ?_⟩
    rw [Nat.add_comm, List.append_assoc]
    exact skipLoop_close hBlanks
  | @item first sep text body texts hSep hRest ih =>
    obtain ⟨hText, hOthers⟩ := List.forall_mem_cons.mp hTexts
    obtain ⟨n, hLe, hLoop⟩ := ih hOthers
    obtain ⟨m, hLt, hSteps⟩ := hText.steps
    -- a member is longer than its steps, which makes room for the step into it
    refine ⟨m + n + 1, ?_, fun opened fuel rest => ?_⟩
    · simp only [List.length_append]
      omega
    · obtain ⟨ws, hBlanks, hStep⟩ :=
        skipStep_separates opened hSep hText.opens (body ++ rest)
      obtain ⟨head, hHead, hGo⟩ :=
        hSteps (frame :: opened) (n + fuel) ws (body ++ rest) hBlanks (hRest.fence rest)
      rw [show m + n + 1 + fuel = m + (n + fuel) + 1 by omega, List.append_assoc,
        List.append_assoc, skipLoop_enter (.inl (List.cons_ne_nil _ _)) hStep hHead, hGo]
      exact hLoop opened fuel rest

/-- A container is passed over if its members are. -/
theorem Encloses.skips {texts : List (List Char)} (h : Encloses frame texts cs)
    (hTexts : ∀ text ∈ texts, SkipsIn frame text) : Skips cs := by
  have hOpens := h.opens
  obtain ⟨body, rfl, hItems⟩ := h
  obtain ⟨n, hLe, hLoop⟩ := skipLoop_items hItems hTexts
  refine ⟨hOpens, n, Nat.lt_succ_of_le hLe, fun opened fuel rest _ => ?_⟩
  exact ⟨(some frame, body ++ rest), by cases frame <;> rfl, hLoop opened fuel rest⟩

/-! ## Values -/

/-- A numeral is passed over up to the first character that does not go on with it. -/
theorem IsNumeral.skips (h : IsNumeral cs) : Skips cs := by
  obtain ⟨c, tail, rfl, hFirst⟩ := h.eq_cons
  obtain ⟨-, hArray, hObject⟩ := opens_of_numeral hFirst
  refine .of_scalar ⟨c, rfl, opens_of_numeral hFirst⟩ fun rest hFence => ?_
  obtain ⟨n, hScan⟩ := h.scan hFence
  rw [List.cons_append] at hScan
  -- the first character tells a number from all other values
  have hOther : c ≠ '[' ∧ c ≠ '{' ∧ c ≠ '"' := by
    refine ⟨?_, ?_, ?_⟩ <;> rintro rfl <;> exact absurd hFirst (by decide)
  rw [List.cons_append, skipHead, if_neg hOther.1, if_neg hOther.2.1, if_neg hOther.2.2,
    if_pos hFirst, skipNumber, hScan]
  rfl

/-- A string is passed over in its first step. -/
theorem IsString.skips (h : IsString cs) : Skips cs := by
  have hOpens := h.opens
  obtain ⟨body, rfl, hBody⟩ := h.skipString
  refine .of_scalar hOpens fun rest _ => ?_
  show (Json.skipString (body ++ rest)).map (none, ·) = _
  rw [hBody]
  rfl

/-- **Every well-formed value is passed over**, at any depth. -/
theorem WellFormed.skips (h : WellFormed cs) : Skips cs := by
  -- by the syntax of the value: a container is passed over since its members are
  induction h with
  | literal h =>
    rcases h with rfl | rfl | rfl
    · exact .of_scalar ⟨'n', rfl, by decide⟩ fun rest _ => rfl
    · exact .of_scalar ⟨'t', rfl, by decide⟩ fun rest _ => rfl
    · exact .of_scalar ⟨'f', rfl, by decide⟩ fun rest _ => rfl
  | number h => exact h.skips
  | string h => exact h.skips
  | array _ hEncloses ih => exact hEncloses.skips fun text hText => (ih text hText).in_array
  | object _ hMembers hEncloses ih =>
    refine hEncloses.skips fun text hText => ?_
    obtain ⟨value, hValue, hMember⟩ := hMembers text hText
    exact (ih value hValue).in_object hMember

/-- So the value of an unknown field is passed over, and what follows it is left. -/
theorem WellFormed.skipValue (h : WellFormed cs) {ws rest : List Char} (hBlanks : Blanks ws)
    (hFence : Fence rest) : skipValue (ws ++ (cs ++ rest)) = .ok rest := by
  obtain ⟨n, hLt, hSteps⟩ := h.skips.steps
  -- the length of the whole text is the fuel, and the value alone is longer than its steps
  obtain ⟨spare, hFuel⟩ : ∃ spare, (ws ++ (cs ++ rest)).length = n + spare := by
    refine Nat.exists_eq_add_of_le ?_
    simp only [List.length_append]
    omega
  obtain ⟨head, hHead, hGo⟩ := hSteps [] spare rest hFence
  have hSkip := skipBlanks_opens hBlanks h.opens rest
  have hMember : skipMember none (cs ++ rest) = .ok head := by
    rw [← hHead]
    exact congrArg skipHead (skipBlanks_opens blanks_nil h.opens rest)
  have hStep : skipStep [] .next (ws ++ (cs ++ rest)) = enterMember [] (cs ++ rest) := by
    simp only [skipStep, hSkip]
  rw [Json.skipValue, hFuel, skipLoop_enter (.inr (by simp)) hStep hMember, hGo, skipLoop]

end RiscvLowering.Json
