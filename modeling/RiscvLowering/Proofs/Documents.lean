import RiscvLowering.Proofs.Spellings

/-!
# Documents — the texts that are written

A document is laid out over several lines, at any level. Its text is one of those
that the grammar has for it: the new lines are blanks, and the members of a container
are the texts of its parts, one level deeper. So what is written for a value is a
text of it as soon as this holds of its parts.

Main results:

* `encloses_array`, `encloses_object` — the texts that a container is laid out of.
* `writes_list`, `writes_name`, `writes_tagged`, `writes_record` — what is written for
  arrays, choices and records.
-/

namespace RiscvLowering.Json

/-- What is written for the document, at any level, is such a text. -/
def Writes (IsText : List Char → Prop) (j : Json) : Prop :=
  ∀ level, IsText (j.prettyChars level)

/-! ## Containers -/

/-- A new line is blanks, at any level. -/
theorem blanks_newLine (level : Nat) : Blanks (newLine level) := by
  intro c hc
  rw [newLine, List.mem_cons] at hc
  rcases hc with rfl | hc
  · rfl
  · obtain rfl := List.eq_of_mem_replicate hc
    rfl

/-- A comma and a new line stand between two members. -/
theorem separates_newLine (level : Nat) : Separates false (',' :: newLine level) :=
  .comma blanks_nil (blanks_newLine level)

/-- The items behind the first of an array, each on a line of its own. -/
theorem items_prettyItems (level : Nat) (xs : List Json) :
    Items .array false (xs.map (prettyChars (level + 1))) (prettyItems level xs) := by
  -- by the items left, with the first of them at hand: a comma and a line for it, then the rest
  induction xs with
  | nil =>
    rw [prettyItems]
    exact .close (blanks_newLine level)
  | cons x xs ih =>
    rw [prettyItems, List.append_assoc]
    exact .item (separates_newLine (level + 1)) ih

/-- An array is laid out of its items, one level deeper. -/
theorem encloses_array (level : Nat) (xs : List Json) :
    Encloses .array (xs.map (prettyChars (level + 1))) (prettyChars level (.array xs)) := by
  cases xs with
  -- an empty container stands on one line
  | nil => exact ⟨_, rfl, .close blanks_nil⟩
  | cons x xs =>
    rw [prettyChars, List.append_assoc]
    exact ⟨_, rfl, .item (.first (blanks_newLine (level + 1))) (items_prettyItems level xs)⟩

/-- A member of an object, at the level of its key. -/
def memberChars (level : Nat) (member : String × Json) : List Char :=
  quote member.1 ++ ':' :: ' ' :: member.2.prettyChars level

/-- A member is laid out of its key and its value. -/
theorem member_memberChars {key : List Char → Prop} (level : Nat) (member : String × Json)
    (hKey : key (quote member.1)) :
    Member key (member.2.prettyChars level) (memberChars level member) :=
  .mk hKey blanks_nil (blanks_singleton rfl)

/-- The members behind the first of an object, each on a line of its own. -/
theorem items_prettyMembers (level : Nat) (members : List (String × Json)) :
    Items .object false (members.map (memberChars (level + 1))) (prettyMembers level members) := by
  induction members with
  | nil =>
    rw [prettyMembers]
    exact .close (blanks_newLine level)
  | cons member members ih =>
    have hItem : Items .object false (memberChars (level + 1) member :: _) _ :=
      .item (separates_newLine (level + 1)) ih
    simpa only [List.map_cons, prettyMembers, memberChars, List.append_assoc, List.cons_append]
      using hItem

/-- An object is laid out of its members, one level deeper. -/
theorem encloses_object (level : Nat) (members : List (String × Json)) :
    Encloses .object (members.map (memberChars (level + 1)))
      (prettyChars level (.object members)) := by
  cases members with
  | nil => exact ⟨_, rfl, .close blanks_nil⟩
  | cons member members =>
    -- in front of the first member there is no comma
    have hItem : Items .object true (memberChars (level + 1) member :: _) _ :=
      .item (.first (blanks_newLine (level + 1))) (items_prettyMembers level members)
    refine ⟨_, ?_, hItem⟩
    simp only [prettyChars, memberChars, List.append_assoc, List.cons_append, Frame.opening]

/-! ## Arrays and choices -/

/-- An array is written if its items are. -/
theorem writes_list {α : Type} {IsText : α → List Char → Prop} {doc : α → Json} {as : List α}
    (h : ∀ a, Writes (IsText a) (doc a)) : Writes (ListText IsText as) (.array (as.map doc)) := by
  intro level
  refine ⟨_, ?_, encloses_array level _⟩
  rw [List.map_map, List.forall₂_map_right_iff, List.forall₂_same]
  exact fun a _ => h a (level + 1)

/-- A string is written between quotes. -/
theorem writes_string (s : String) : Writes (Quotes s) (.string s) :=
  fun _ => quotes_quote s

/-- A choice without data is written as its name. -/
theorem writes_name (name : String) : Writes (NameText name) (.string name) :=
  fun _ => .inl (quotes_quote name)

/-- A choice with data is written as an object of one member. -/
theorem writes_tagged {IsData : List Char → Prop} {x : Json} (name : String)
    (h : Writes IsData x) : Writes (TaggedText name IsData) (.object [(name, x)]) :=
  fun level => ⟨_, _, h (level + 1), member_memberChars (level + 1) (name, x) (quotes_quote name),
    encloses_object level [(name, x)]⟩

/-! ## Records -/

/-- The member is the field as it is written. -/
structure FieldText.WrittenAs (field : FieldText) (member : String × Json) : Prop where
  name : member.1 = field.name
  value : Writes field.IsText member.2

variable {fields : List FieldText} {members : List (String × Json)}

/-- Fields that are written, under names that do not repeat, are the members of a record. -/
theorem memberTexts_written (h : List.Forall₂ FieldText.WrittenAs fields members)
    (hNames : (fields.map (·.name)).Nodup) {known : List FieldText} (hKnown : fields ⊆ known)
    (level : Nat) :
    MemberTexts known (fields.map (·.name)) (members.map (memberChars level)) := by
  -- by the fields: the name of the first is none of those behind it
  induction h with
  | nil => exact .nil
  | @cons field member fields members hField _ ih =>
    rw [List.map_cons, List.nodup_cons] at hNames
    obtain ⟨hFirst, hRest⟩ := List.cons_subset.mp hKnown
    have hMember := member_memberChars level member (quotes_quote member.1)
    rw [hField.name] at hMember
    exact .known hFirst hNames.1 (hField.value level) hMember (ih hNames.2 hRest)

/-- **A record is written with all its fields**, in the order of their table. -/
theorem writes_record (hNames : (fields.map (·.name)).Nodup)
    (h : List.Forall₂ FieldText.WrittenAs fields members) :
    Writes (RecordText fields) (.object members) := by
  intro level
  refine .inl ⟨_, _, memberTexts_written h hNames (List.Subset.refl fields) (level + 1), ?_,
    encloses_object level members⟩
  exact fun field hField => .inl (List.mem_map_of_mem hField)

end RiscvLowering.Json
