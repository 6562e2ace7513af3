import RiscvLowering.Machine.Register

/-!
# Faults of documents

What can be wrong with a JSON document that should hold a value of some type: its text is no JSON,
it ends too early, or what it says does not fit the type.
-/

namespace RiscvLowering.Json

/-- The first fault met in a document, in text order. -/
inductive Fault where
  /-- The text is no JSON here. -/
  | malformed
  /-- The text ends where more has to come. -/
  | truncated
  /-- A value of another kind than the one wanted. -/
  | invalidType
  /-- An integer outside the range wanted. -/
  | invalidValue
  /-- A record written as an array that is too short. -/
  | invalidLength
  /-- A record without a field that has no default. -/
  | missingField (name : String)
  /-- A field given twice. -/
  | duplicateField (name : String)
  /-- A name that is none of a choice. -/
  | unknownVariant (name : String)
  /-- A number that names no register. -/
  | noRegister (number : Reg.OutOfRange)
deriving DecidableEq

/-- What is said of a document that is JSON as far as it was read; `none` where it is not. -/
def Fault.message? : Fault → Option String
  | malformed | truncated => none
  | invalidType => some "invalid type"
  | invalidValue => some "invalid value"
  | invalidLength => some "invalid length"
  | missingField name => some ("missing field `" ++ name ++ "`")
  | duplicateField name => some ("duplicate field `" ++ name ++ "`")
  | unknownVariant name => some ("unknown variant `" ++ name ++ "`")
  | noRegister number => some number.message

end RiscvLowering.Json
