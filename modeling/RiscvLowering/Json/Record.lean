import RiscvLowering.Json.Reader

/-!
# Records

A record is written as an object of its fields, in any order and with unknown fields among them, or
as an array of its fields in the order of their table. It is read into a draft, which knows of every
field whether it has been given, and completed when its end is reached.
-/

namespace RiscvLowering.Json

/-- A field of a record that is read into drafts of type `δ`. -/
structure Field (δ : Type) where
  name : String
  /-- Whether the draft has the field already. -/
  given : δ → Bool
  /-- Reads the field into the draft. -/
  read : δ → Reader δ

/-- A field that a draft keeps at a place of its own. -/
def Field.kept {δ α : Type} (name : String) (get : δ → Option α) (set : δ → α → δ)
    (read : Reader α) : Field δ where
  name
  given d := (get d).isSome
  read d cs := do
    let (a, cs) ← read cs
    return (set d a, cs)

/-- A record: its fields in order, the draft that has none of them, and how a draft is completed. A
draft that lacks a field without default cannot be. -/
structure Record (δ α : Type) where
  fields : List (Field δ)
  blank : δ
  complete : δ → Except Fault α

/-- The value of a field that has no default. -/
def required {α : Type} (name : String) : Option α → Except Fault α
  | some a => .ok a
  | none => .error (.missingField name)

namespace Record

variable {δ α : Type}

/-- Reads the members of an object into a draft, from behind the opening bracket. A member takes at
least a character, so the length of the text is fuel enough. -/
def readMembers (fields : List (Field δ)) : Nat → Bool → δ → Reader δ
  | 0, _, _, _ => .error .malformed
  | fuel + 1, first, d, cs => do
    match ← nextMember .object first cs with
    | .closed cs => return (d, cs)
    | .member cs =>
      let cs ← literal ['"'] cs
      let (name, cs) ← unquote cs
      match fields.find? (·.name = name) with
      | none =>
        -- a field that is not known is passed over; it may come twice
        let cs ← punctuation ':' cs
        let cs ← skipValue cs
        readMembers fields fuel false d cs
      | some field =>
        -- a field that comes twice is refused before its second value is read
        if field.given d then throw (.duplicateField name)
        let cs ← punctuation ':' cs
        let (d, cs) ← field.read d cs
        readMembers fields fuel false d cs

/-- Reads the elements of an array into a draft, one field after the other. The array may end before
its last field, not after it. -/
def readFields : List (Field δ) → Bool → δ → Reader δ
  | [], _, d, cs => do
    let cs ← punctuation ']' cs
    return (d, cs)
  | field :: fields, first, d, cs => do
    match ← nextMember .array first cs with
    | .closed cs => return (d, cs)
    | .member cs =>
      let (d, cs) ← field.read d cs
      readFields fields false d cs

/-- Reads a record in either form. -/
def read (r : Record δ α) : Reader α := fun cs =>
  match skipBlanks cs with
  | '{' :: cs => do
    let (d, cs) ← readMembers r.fields (cs.length + 1) true r.blank cs
    return (← r.complete d, cs)
  | '[' :: cs => do
    let (d, cs) ← readFields r.fields true r.blank cs
    match r.complete d with
    | .ok a => return (a, cs)
    -- an array lacks a field if it ends too soon
    | .error _ => throw .invalidLength
  | cs => .error (unexpected cs)

end Record

end RiscvLowering.Json
