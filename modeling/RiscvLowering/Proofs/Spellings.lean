import RiscvLowering.Proofs.Skipping

/-!
# Spellings — the texts of arrays, choices and records

A value has more texts than the one that is written for it. A record is an object
of its fields in any order, without those that have their default if one pleases,
and with unknown fields among them; or an array of its fields in the order of
their table, up to the last that has not its default. A choice without data is its
name, or an object with the name for the only key and null behind it. A reader that
reads each text of the parts reads each text of the whole.

Main results:

* `reads_list` — arrays.
* `reads_nameText`, `reads_taggedText` — choices without data and with data.
* `reads_record` — records.
-/

namespace RiscvLowering.Json

/-! ## Texts -/

/-- A number has one text, its digits with the sign in front. -/
def NumberText (n : Int) (cs : List Char) : Prop := cs = n.repr.toList

/-- A truth value has one text. -/
def BoolText (b : Bool) (cs : List Char) : Prop := cs = boolChars b

/-- The texts of a value that may be absent. -/
def NullableText {α : Type} (IsText : α → List Char → Prop) : Option α → List Char → Prop
  | none, cs => cs = "null".toList
  | some a, cs => IsText a cs

/-- An array has a text for each element. -/
def ListText {α : Type} (IsText : α → List Char → Prop) (as : List α) (cs : List Char) : Prop :=
  ∃ texts, List.Forall₂ IsText as texts ∧ Encloses .array texts cs

/-- The texts of a choice with data. -/
def TaggedText (name : String) (IsData : List Char → Prop) (cs : List Char) : Prop :=
  ∃ data text, IsData data ∧ Member (Quotes name) data text ∧ Encloses .object [text] cs

/-- The texts of a choice without data. -/
def NameText (name : String) (cs : List Char) : Prop :=
  Quotes name cs ∨ TaggedText name (· = "null".toList) cs

/-- A field of a record, with the value that it has there. -/
structure FieldText where
  name : String
  /-- The texts of the value. -/
  IsText : List Char → Prop
  /-- The value is the default of the field. -/
  IsDefault : Prop

/-- The texts of the members of an object, with the names of the fields that they
give: fields of the record, each once, and unknown ones, whose values are passed
over. -/
inductive MemberTexts (fields : List FieldText) : List String → List (List Char) → Prop
  | nil : MemberTexts fields [] []
  | known {field : FieldText} {names : List String} {value text : List Char}
      {texts : List (List Char)} : field ∈ fields → field.name ∉ names → field.IsText value →
      Member (Quotes field.name) value text → MemberTexts fields names texts →
      MemberTexts fields (field.name :: names) (text :: texts)
  | unknown {name : String} {names : List String} {value text : List Char}
      {texts : List (List Char)} : name ∉ fields.map (·.name) → WellFormed value →
      Member (Quotes name) value text → MemberTexts fields names texts →
      MemberTexts fields names (text :: texts)

/-- The texts of a record that is written as an object. -/
def ObjectText (fields : List FieldText) (cs : List Char) : Prop :=
  ∃ names texts, MemberTexts fields names texts ∧
    (∀ field ∈ fields, field.name ∈ names ∨ field.IsDefault) ∧ Encloses .object texts cs

/-- The texts of a record that is written as an array. -/
def ArrayText (fields : List FieldText) (cs : List Char) : Prop :=
  ∃ n texts, List.Forall₂ FieldText.IsText (fields.take n) texts ∧
    (∀ field ∈ fields.drop n, field.IsDefault) ∧ Encloses .array texts cs

/-- A record is an object of its fields or an array of them. -/
def RecordText (fields : List FieldText) (cs : List Char) : Prop :=
  ObjectText fields cs ∨ ArrayText fields cs

/-! ## Scalars -/

/-- A string is read from each spelling of it, escapes and all. -/
theorem reads_quotes {s : String} {cs : List Char} (h : Quotes s cs) : Reads readString s cs := by
  have hOpens := h.opens
  obtain ⟨body, rfl, hBody⟩ := h.unquoteFrom
  refine reads_of_skipBlanks hOpens fun text rest hSkip _ => ?_
  rw [readString, hSkip]
  exact hBody rest

theorem reads_boolText {b : Bool} {cs : List Char} (h : BoolText b cs) : Reads readBool b cs :=
  h ▸ reads_bool b

theorem reads_nullText : Reads readNull () "null".toList := by
  refine reads_of_skipBlanks ⟨'n', rfl, by decide⟩ fun text rest hSkip _ => ?_
  rw [readNull, hSkip]
  rfl

/-! ## Containers -/

/-- A container is read if what stands behind its opening bracket is. Its members are
fewer than the characters of the text, so these are fuel enough. -/
theorem reads_of_encloses {α : Type} {read : Reader α} {a : α} {frame : Frame}
    {texts : List (List Char)} {cs : List Char} (h : Encloses frame texts cs)
    (hRead : ∀ whole body rest, skipBlanks whole = frame.opening :: (body ++ rest) →
      Items frame true texts body → texts.length < (body ++ rest).length + 1 →
      read whole = .ok (a, rest)) : Reads read a cs := by
  have hOpens := h.opens
  obtain ⟨body, rfl, hItems⟩ := h
  refine reads_of_skipBlanks hOpens fun whole rest hSkip _ => ?_
  refine hRead whole body rest hSkip hItems ?_
  -- the fuel is one more than the characters behind the bracket
  have hLength := hItems.length_le
  rw [List.length_append]
  omega

/-! ## Arrays -/

section Arrays

variable {α : Type} {read : Reader α}

/-- Where the bracket closes, the elements end. -/
theorem readElements_close (read : Reader α) (fuel : Nat) (first : Bool) {ws rest : List Char}
    (hBlanks : Blanks ws) :
    readElements read (fuel + 1) first (ws ++ ']' :: rest) = .ok ([], rest) := by
  have hNext : nextMember .array first (ws ++ ']' :: rest) = .ok (.closed rest) :=
    nextMember_close hBlanks
  rw [readElements, hNext]
  rfl

/-- One element is read, and then those behind it. -/
theorem readElements_member {fuel : Nat} {first : Bool} {sep cs rest rest' : List Char} {a : α}
    {as : List α} (hSep : Separates first sep) (hRead : Reads read a cs) (hFence : Fence rest)
    (hRest : readElements read fuel false rest = .ok (as, rest')) :
    readElements read (fuel + 1) first (sep ++ (cs ++ rest)) = .ok (a :: as, rest') := by
  have hElement := hRead.reads [] rest blanks_nil hFence
  rw [List.nil_append] at hElement
  rw [readElements, nextMember_member hSep hRead.opens]
  simp only [ok_bind, hElement, hRest]
  rfl

/-- What is left of an array is read element by element. -/
theorem readElements_items {first : Bool} {as : List α} {texts : List (List Char)}
    {body : List Char} (hItems : Items .array first texts body)
    (hReads : List.Forall₂ (Reads read) as texts) {fuel : Nat} (hFuel : texts.length < fuel)
    (rest : List Char) : readElements read fuel first (body ++ rest) = .ok (as, rest) := by
  obtain ⟨fuel, rfl⟩ := Nat.exists_eq_add_one_of_ne_zero (Nat.ne_zero_of_lt hFuel)
  -- by the elements still to come, each of which takes one unit of fuel
  induction hItems generalizing as fuel with
  | close hBlanks =>
    cases hReads
    rw [List.append_assoc]
    exact readElements_close read fuel _ hBlanks
  | @item first sep text body texts hSep hRest ih =>
    cases hReads with
    | cons hFirst hOthers =>
      simp only [List.length_cons, Nat.add_lt_add_iff_right] at hFuel
      obtain ⟨fuel, rfl⟩ := Nat.exists_eq_add_one_of_ne_zero (Nat.ne_zero_of_lt hFuel)
      rw [List.append_assoc, List.append_assoc]
      exact readElements_member hSep hFirst (hRest.fence rest) (ih hOthers fuel hFuel)

/-- **An array is read off each of its texts.** -/
theorem reads_list {IsText : α → List Char → Prop} (hText : ∀ a cs, IsText a cs → Reads read a cs)
    {as : List α} {cs : List Char} (h : ListText IsText as cs) : Reads (readList read) as cs := by
  obtain ⟨texts, hTexts, hEncloses⟩ := h
  refine reads_of_encloses hEncloses fun whole body rest hSkip hItems hFuel => ?_
  change skipBlanks whole = '[' :: (body ++ rest) at hSkip
  rw [readList, hSkip]
  exact readElements_items hItems (hTexts.imp hText) hFuel rest

end Arrays

/-! ## Choices -/

section Choices

variable {α : Type} {variants : String → Option (Variant α)} {name : String} {a : α}
  {cs : List Char}

/-- A choice is read off an object of its name and what its variant reads as data. -/
theorem reads_variant {variant : Variant α} {data text : List Char}
    (hVariant : variants name = some variant) (hData : Reads variant.readData a data)
    (hMember : Member (Quotes name) data text) (hEncloses : Encloses .object [text] cs) :
    Reads (readChoice variants) a cs := by
  have hOpens := hEncloses.opens
  obtain ⟨ws, ws', hBlanks, hBlanks', rfl⟩ := hEncloses.singleton
  cases hMember with
  | @mk key ws₁ ws₂ hKey h₁ h₂ =>
    obtain ⟨body, rfl, hBody⟩ := hKey.unquoteFrom
    refine reads_of_skipBlanks hOpens fun whole rest hSkip _ => ?_
    simp only [Frame.opening, Frame.close, List.cons_append, List.append_assoc,
      List.nil_append] at hSkip
    -- the key, the colon, the data and the bracket, each behind its blanks
    have hFence : Fence (ws' ++ '}' :: rest) := fence_append hBlanks' (fence_cons (by decide))
    have hQuote : punctuation '"' (ws ++ '"' :: (body ++ (ws₁ ++ ':' :: (ws₂ ++ (data ++
        (ws' ++ '}' :: rest)))))) = .ok _ := punctuation_blanks hBlanks (by decide)
    have hColon : punctuation ':' (ws₁ ++ ':' :: (ws₂ ++ (data ++ (ws' ++ '}' :: rest)))) = .ok _ :=
      punctuation_blanks h₁ (by decide)
    have hClose : punctuation '}' (ws' ++ '}' :: rest) = .ok rest :=
      punctuation_blanks hBlanks' (by decide)
    rw [readChoice, hSkip]
    simp only [hQuote, ok_bind, unquote, hBody, findVariant, hVariant, hColon,
      hData.reads ws₂ _ h₂ hFence, hClose]
    rfl

/-- **A choice with data is read off each of its texts.** -/
theorem reads_taggedText {read : Reader α} {IsData : List Char → Prop}
    (hVariant : variants name = some (.data read)) (hData : ∀ data, IsData data → Reads read a data)
    (h : TaggedText name IsData cs) : Reads (readChoice variants) a cs := by
  obtain ⟨data, text, hIs, hMember, hEncloses⟩ := h
  exact reads_variant hVariant (hData data hIs) hMember hEncloses

/-- **A choice without data is read off each of its texts.** -/
theorem reads_nameText (hVariant : variants name = some (.bare a)) (h : NameText name cs) :
    Reads (readChoice variants) a cs := by
  -- the name stands alone, or as a key with null for its data
  rcases h with hQuotes | ⟨_, text, rfl, hMember, hEncloses⟩
  · have hOpens := hQuotes.opens
    obtain ⟨body, rfl, hBody⟩ := hQuotes.unquoteFrom
    refine reads_of_skipBlanks hOpens fun whole rest hSkip _ => ?_
    rw [List.cons_append] at hSkip
    rw [readChoice, hSkip]
    simp only [unquote, hBody, ok_bind, findVariant, hVariant]
    rfl
  · exact reads_variant hVariant (reads_nullText.map fun _ => a) hMember hEncloses

end Choices

/-! ## Records -/

/-- The field is read as its text says into drafts that lack it, where a draft is
given by the names of the fields that it has. -/
structure FieldReads {δ : Type} (draft : List String → δ) (field : Field δ) (text : FieldText) :
    Prop where
  name : field.name = text.name
  lacks : ∀ names, text.name ∉ names → field.given (draft names) = false
  reads : ∀ names, text.name ∉ names → ∀ cs, text.IsText cs →
    Reads (field.read (draft names)) (draft (text.name :: names)) cs

/-- The drafts of a record on the way to a value: they have no fields at first, get
them as their texts say, and are completed to the value once they have all that have
no default. -/
structure Describes {δ α : Type} (r : Record δ α) (draft : List String → δ) (a : α)
    (texts : List FieldText) : Prop where
  names : (r.fields.map (·.name)).Nodup
  blank : draft [] = r.blank
  fields : List.Forall₂ (FieldReads draft) r.fields texts
  complete : ∀ names, (∀ text ∈ texts, text.name ∈ names ∨ text.IsDefault) →
    r.complete (draft names) = .ok a

section Records

variable {δ α : Type} {r : Record δ α} {draft : List String → δ} {a : α} {texts : List FieldText}
  {cs : List Char}

/-- The texts of a record name its fields, in the order of the table. -/
theorem Describes.map_name (h : Describes r draft a texts) :
    r.fields.map (·.name) = texts.map (·.name) := by
  rw [← List.forall₂_eq_eq_eq, List.forall₂_map_left_iff, List.forall₂_map_right_iff]
  exact h.fields.imp fun _ _ hField => hField.name

theorem Describes.nodup (h : Describes r draft a texts) : (texts.map (·.name)).Nodup :=
  h.map_name ▸ h.names

/-- The field of a name. -/
theorem Describes.find? (h : Describes r draft a texts) {text : FieldText} (hText : text ∈ texts) :
    ∃ field, r.fields.find? (·.name = text.name) = some field ∧ FieldReads draft field text := by
  obtain ⟨i, hi, rfl⟩ := List.mem_iff_getElem.mp hText
  have hi' : i < r.fields.length := h.fields.length_eq ▸ hi
  have hField : FieldReads draft r.fields[i] texts[i] := h.fields.get hi' hi
  exact ⟨_, hField.name ▸ find?_key h.names (List.getElem_mem hi'), hField⟩

/-- No field has a name that is unknown. -/
theorem Describes.find?_unknown (h : Describes r draft a texts) {name : String}
    (hName : name ∉ texts.map (·.name)) : r.fields.find? (·.name = name) = none := by
  rw [← h.map_name] at hName
  refine List.find?_eq_none.mpr fun field hField hSame => hName ?_
  exact List.mem_map.mpr ⟨field, hField, by simpa using hSame⟩

/-- In front of a member, the reader takes its key and goes on by the field of that name. -/
theorem readMembers_text (fields : List (Field δ)) (fuel : Nat) {first : Bool} (d : δ)
    {name : String} {sep value text : List Char} (hSep : Separates first sep)
    (hMember : Member (Quotes name) value text) (rest : List Char) :
    ∃ ws, Blanks ws ∧ Record.readMembers fields (fuel + 1) first d (sep ++ (text ++ rest)) =
      match fields.find? (·.name = name) with
      | none => skipValue (ws ++ (value ++ rest)) >>= Record.readMembers fields fuel false d
      | some field =>
        if field.given d then throw (.duplicateField name)
        else field.read d (ws ++ (value ++ rest)) >>= fun (d, cs) =>
          Record.readMembers fields fuel false d cs := by
  have hOpens : Opens text := hMember.opens fun _ hKey => QuotesIn.opens hKey
  cases hMember with
  | @mk key ws₁ ws₂ hKey h₁ h₂ =>
    refine ⟨ws₂, h₂, ?_⟩
    obtain ⟨body, rfl, hBody⟩ := hKey.unquoteFrom
    have hQuote : literal ['"'] ('"' :: (body ++ (ws₁ ++ ':' :: (ws₂ ++ (value ++ rest))))) =
        .ok (body ++ (ws₁ ++ ':' :: (ws₂ ++ (value ++ rest)))) := literal_append ['"'] _
    have hColon : punctuation ':' (ws₁ ++ ':' :: (ws₂ ++ (value ++ rest))) = .ok _ :=
      punctuation_blanks h₁ (by decide)
    -- behind the colon, the name tells what is done with the value
    rw [Record.readMembers, nextMember_member hSep hOpens]
    simp only [ok_bind, List.append_assoc, List.cons_append, hQuote, unquote, hBody, hColon]
    cases fields.find? (·.name = name) with
    | none => rfl
    | some field => cases field.given d <;> rfl

/-- Where the bracket closes, the members end and the draft is what it is. -/
theorem readMembers_close {fields : List (Field δ)} {fuel : Nat} {first : Bool} {d : δ}
    {ws rest : List Char} (hBlanks : Blanks ws) :
    Record.readMembers fields (fuel + 1) first d (ws ++ '}' :: rest) = .ok (d, rest) := by
  have hNext : nextMember .object first (ws ++ '}' :: rest) = .ok (.closed rest) :=
    nextMember_close hBlanks
  rw [Record.readMembers, hNext]
  rfl

/-- What is left of an object is read member by member. -/
theorem readMembers_items (h : Describes r draft a texts) {first : Bool}
    {members : List (List Char)} {body : List Char} (hItems : Items .object first members body)
    {names given : List String} (hMembers : MemberTexts texts given members)
    (hNew : ∀ name ∈ given, name ∉ names) {fuel : Nat} (hFuel : members.length < fuel)
    (rest : List Char) :
    Record.readMembers r.fields fuel first (draft names) (body ++ rest) =
      .ok (draft (given.reverse ++ names), rest) := by
  obtain ⟨fuel, rfl⟩ := Nat.exists_eq_add_one_of_ne_zero (Nat.ne_zero_of_lt hFuel)
  -- by the members still to come; `names` are those of the fields that came
  induction hItems generalizing names given fuel with
  | close hBlanks =>
    cases hMembers
    rw [List.append_assoc]
    exact readMembers_close hBlanks
  | @item first sep text body members hSep hRest ih =>
    simp only [List.length_cons, Nat.add_lt_add_iff_right] at hFuel
    obtain ⟨fuel, rfl⟩ := Nat.exists_eq_add_one_of_ne_zero (Nat.ne_zero_of_lt hFuel)
    have hFence := hRest.fence rest
    rw [List.append_assoc, List.append_assoc]
    cases hMembers with
    | @known field given value _ _ hField hFresh hValue hMember hOthers =>
      obtain ⟨hFirst, hLater⟩ := List.forall_mem_cons.mp hNew
      obtain ⟨known, hFind, hKnown⟩ := h.find? hField
      have hGiven := hKnown.lacks names hFirst
      obtain ⟨ws, hBlanks, hStep⟩ :=
        readMembers_text r.fields (fuel + 1) (draft names) hSep hMember (body ++ rest)
      -- no later member gives this field again
      have hNew' : ∀ name ∈ given, name ∉ field.name :: names := by
        intro name hName
        rw [List.mem_cons, not_or]
        exact ⟨fun hSame => hFresh (hSame ▸ hName), hLater name hName⟩
      rw [hStep, hFind]
      have hRead := (hKnown.reads names hFirst value hValue).reads ws (body ++ rest) hBlanks hFence
      simp only [hGiven, Bool.false_eq_true, if_false, hRead, ok_bind, ih hOthers hNew' fuel hFuel,
        List.reverse_cons, List.append_assoc, List.singleton_append]
    | @unknown name _ value _ _ hName hValue hMember hOthers =>
      obtain ⟨ws, hBlanks, hStep⟩ :=
        readMembers_text r.fields (fuel + 1) (draft names) hSep hMember (body ++ rest)
      rw [hStep, h.find?_unknown hName]
      simp only [hValue.skipValue hBlanks hFence, ok_bind, ih hOthers hNew fuel hFuel]

/-- The fields of an array follow their table, up to where it ends. -/
theorem readFields_items {first : Bool} {elements : List (List Char)} {body : List Char}
    (hItems : Items .array first elements body) {n : Nat} {names : List String}
    {fields : List (Field δ)} {texts : List FieldText}
    (hFields : List.Forall₂ (FieldReads draft) fields texts)
    (hElements : List.Forall₂ FieldText.IsText (texts.take n) elements)
    (hNames : (texts.map (·.name)).Nodup) (hNew : ∀ text ∈ texts, text.name ∉ names)
    (rest : List Char) :
    Record.readFields fields first (draft names) (body ++ rest) =
      .ok (draft (((texts.take n).map (·.name)).reverse ++ names), rest) := by
  -- by the elements still to come; `names` are those of the fields that came
  induction hItems generalizing names fields texts n with
  | @close first ws hBlanks =>
    rw [List.append_assoc, List.singleton_append, List.forall₂_nil_right_iff.mp hElements]
    cases hFields with
    | nil =>
      have hClose : punctuation ']' (ws ++ ']' :: rest) = .ok rest :=
        punctuation_blanks hBlanks (by decide)
      rw [Record.readFields]
      simp only [Frame.close, hClose, ok_bind]
      rfl
    | cons _ _ =>
      rw [Record.readFields, nextMember_close hBlanks]
      rfl
  | @item first sep element body elements hSep hRest ih =>
    obtain ⟨text, taken, hValue, hOthers, hTake⟩ := List.forall₂_cons_right_iff.mp hElements
    cases hFields with
    | nil => simp at hTake
    | @cons field text' fields texts hField hLater =>
      -- an element stands for the next field, so the array does not end in front of it
      cases n with
      | zero => simp at hTake
      | succ n =>
        rw [List.take_succ_cons, List.cons.injEq] at hTake
        obtain ⟨rfl, rfl⟩ := hTake
        obtain ⟨hFirst, hNew⟩ := List.forall_mem_cons.mp hNew
        rw [List.map_cons, List.nodup_cons] at hNames
        have hReads := hField.reads names hFirst element hValue
        have hRead := hReads.reads [] (body ++ rest) blanks_nil (hRest.fence rest)
        have hNew' : ∀ text ∈ texts, text.name ∉ text'.name :: names := by
          intro text hText
          rw [List.mem_cons, not_or]
          exact ⟨fun hSame => hNames.1 (hSame ▸ List.mem_map_of_mem hText), hNew text hText⟩
        rw [List.nil_append] at hRead
        rw [List.append_assoc, List.append_assoc, Record.readFields,
          nextMember_member hSep hReads.opens]
        simp only [ok_bind, hRead, ih hLater hOthers hNames.2 hNew', List.take_succ_cons,
          List.map_cons, List.reverse_cons, List.append_assoc, List.singleton_append]

/-- **A record is read off each of its texts.** -/
theorem reads_record (h : Describes r draft a texts) (hText : RecordText texts cs) :
    Reads r.read a cs := by
  rcases hText with ⟨given, members, hMembers, hAll, hEncloses⟩ |
    ⟨n, elements, hElements, hAll, hEncloses⟩
  · refine reads_of_encloses hEncloses fun whole body rest hSkip hItems hFuel => ?_
    change skipBlanks whole = '{' :: (body ++ rest) at hSkip
    have hRead := readMembers_items h hItems hMembers (fun _ _ => List.not_mem_nil) hFuel rest
    rw [h.blank, List.append_nil] at hRead
    have hComplete : r.complete (draft given.reverse) = .ok a :=
      h.complete _ fun text hText => by simpa using hAll text hText
    rw [Record.read, hSkip]
    simp only [hRead, ok_bind, hComplete]
    rfl
  · refine reads_of_encloses hEncloses fun whole body rest hSkip hItems _ => ?_
    change skipBlanks whole = '[' :: (body ++ rest) at hSkip
    have hRead := readFields_items hItems h.fields hElements h.nodup
      (fun _ _ => List.not_mem_nil) rest
    rw [h.blank, List.append_nil] at hRead
    have hComplete : r.complete (draft ((texts.take n).map (·.name)).reverse) = .ok a := by
      refine h.complete _ fun text hText => ?_
      -- a field that is not among those written has its default
      rw [← List.take_append_drop n texts, List.mem_append] at hText
      rcases hText with hTaken | hDropped
      · exact .inl (List.mem_reverse.mpr (List.mem_map_of_mem hTaken))
      · exact .inr (hAll text hDropped)
    rw [Record.read, hSkip]
    simp only [hRead, ok_bind, hComplete]
    rfl

end Records

end RiscvLowering.Json
