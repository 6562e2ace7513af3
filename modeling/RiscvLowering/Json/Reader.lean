import RiscvLowering.Json.Skip

/-!
# Readers

Readers of single values, of arrays and of choices. A reader takes the text once, from front to
back, so the fault that it reports is the first one in text order; in particular a value of the
wrong kind is a fault of its own only after its text has been found well-formed, except for a
container, which is refused at its opening bracket.
-/

namespace RiscvLowering.Json

/-- The fault of a value of the wrong kind whose text was read: one in the text goes first. -/
def refuse {α : Type} : Except Fault α → Fault
  | .ok _ => .invalidType
  | .error e => e

/-- Refuses the value at the front of a text, which is of another kind than the one wanted. -/
def unexpected (cs : List Char) : Fault :=
  match cs with
  | [] => .truncated
  | c :: rest =>
    if c = '[' ∨ c = '{' then .invalidType
    else if c = '"' then refuse (unquote rest)
    else if c = '-' ∨ c.isDigit then refuse (readNumber (c :: rest))
    else if c = 'n' then refuse (literal "ull".toList rest)
    else if c = 't' then refuse (literal "rue".toList rest)
    else if c = 'f' then refuse (literal "alse".toList rest)
    else .malformed

/-- Reads an integer from `lo` to `hi`. -/
def readInt (lo hi : Int) : Reader Int := fun cs =>
  match skipBlanks cs with
  | c :: cs =>
    if c = '-' ∨ c.isDigit then do
      let (n, rest) ← readNumber (c :: cs)
      match n with
      | .inexact => throw .invalidType
      | .integer i => if lo ≤ i ∧ i ≤ hi then return (i, rest) else throw .invalidValue
    else .error (unexpected (c :: cs))
  | [] => .error .truncated

def readUInt32 : Reader UInt32 := fun cs => do
  let (i, cs) ← readInt 0 0xFFFFFFFF cs
  return (UInt32.ofNat i.toNat, cs)

def readUInt64 : Reader UInt64 := fun cs => do
  let (i, cs) ← readInt 0 0xFFFFFFFFFFFFFFFF cs
  return (UInt64.ofNat i.toNat, cs)

def readInt64 : Reader Int64 := fun cs => do
  let (i, cs) ← readInt Int64.minValue.toInt Int64.maxValue.toInt cs
  return (Int64.ofInt i, cs)

/-- Reads a register by its number, which has to fit a byte before it can be no register. -/
def readReg : Reader Reg := fun cs => do
  let (i, cs) ← readInt 0 255 cs
  match Reg.ofNat i.toNat with
  | .ok r => return (r, cs)
  | .error e => throw (.noRegister e)

def readString : Reader String := fun cs =>
  match skipBlanks cs with
  | '"' :: cs => unquote cs
  | cs => .error (unexpected cs)

def readBool : Reader Bool := fun cs =>
  match skipBlanks cs with
  | 't' :: cs => (literal "rue".toList cs).map (true, ·)
  | 'f' :: cs => (literal "alse".toList cs).map (false, ·)
  | cs => .error (unexpected cs)

def readNull : Reader Unit := fun cs =>
  match skipBlanks cs with
  | 'n' :: cs => (literal "ull".toList cs).map ((), ·)
  | cs => .error (unexpected cs)

/-- Reads a value that may be null. -/
def readNullable {α : Type} (read : Reader α) : Reader (Option α) := fun cs =>
  match skipBlanks cs with
  | 'n' :: cs => (literal "ull".toList cs).map (none, ·)
  | cs => (read cs).map fun (a, cs) => (some a, cs)

/-! ## Containers -/

/-- Where a reader of a container stands. -/
inductive Turn where
  /-- Behind the closing bracket. -/
  | closed (rest : List Char)
  /-- Before another member. -/
  | member (rest : List Char)
deriving DecidableEq

/-- Goes on to the next member of a container. Members after the first need a comma, and a comma
needs a member. -/
def nextMember (frame : Frame) (first : Bool) (cs : List Char) : Except Fault Turn :=
  match skipBlanks cs with
  | [] => .error .truncated
  | c :: cs =>
    if c = frame.close then .ok (.closed cs)
    else if first then .ok (.member (c :: cs))
    else if c = ',' then
      match skipBlanks cs with
      | [] => .error .truncated
      -- a comma stands between members, so the bracket may not follow it
      | d :: ds => if d = frame.close then .error .malformed else .ok (.member (d :: ds))
    else .error .malformed

/-- Reads the elements of an array from behind its opening bracket. An element takes at least a
character, so the length of the text is fuel enough. -/
def readElements {α : Type} (read : Reader α) : Nat → Bool → Reader (List α)
  | 0, _, _ => .error .malformed
  | fuel + 1, first, cs => do
    match ← nextMember .array first cs with
    | .closed cs => return ([], cs)
    | .member cs =>
      let (a, cs) ← read cs
      let (as, cs) ← readElements read fuel false cs
      return (a :: as, cs)

/-- Reads an array. -/
def readList {α : Type} (read : Reader α) : Reader (List α) := fun cs =>
  match skipBlanks cs with
  | '[' :: cs => readElements read (cs.length + 1) true cs
  | cs => .error (unexpected cs)

/-! ## Choices -/

/-- A variant of a choice. -/
inductive Variant (α : Type) where
  /-- A name alone. -/
  | bare (a : α)
  /-- A name with data. -/
  | data (read : Reader α)

/-- Finds the variant of a name. -/
def findVariant {α : Type} (variants : String → Option (Variant α)) (name : String) :
    Except Fault (Variant α) :=
  match variants name with
  | some v => .ok v
  | none => .error (.unknownVariant name)

/-- Reads the data of a variant; a name alone has null for its data. -/
def Variant.readData {α : Type} : Variant α → Reader α
  | .bare a => fun cs => do
    let ((), cs) ← readNull cs
    return (a, cs)
  | .data read => read

/-- Reads a value of a choice: the name of a variant without data, or an object whose one key is the
name of the variant and whose value is the data. A key that is no string makes the text no JSON, and
its first character shows it. -/
def readChoice {α : Type} (variants : String → Option (Variant α)) : Reader α := fun cs =>
  match skipBlanks cs with
  | [] => .error .truncated
  | '"' :: cs => do
    let (name, cs) ← unquote cs
    match ← findVariant variants name with
    | .bare a => return (a, cs)
    -- a variant that has data cannot go without them
    | .data _ => throw .invalidType
  | '{' :: cs => do
    let cs ← punctuation '"' cs
    let (name, cs) ← unquote cs
    let variant ← findVariant variants name
    let cs ← punctuation ':' cs
    let (a, cs) ← variant.readData cs
    let cs ← punctuation '}' cs
    return (a, cs)
  | _ => .error .malformed

/-- The variants of a choice of names alone. -/
def bareNames {α : Type} (ofName? : String → Option α) (name : String) : Option (Variant α) :=
  (ofName? name).map .bare

/-- Reads a whole text that holds one value and nothing else but blanks. -/
def readAll {α : Type} (read : Reader α) (text : String) : Except Fault α := do
  let (a, rest) ← read text.toList
  if skipBlanks rest = [] then return a else throw .malformed

end RiscvLowering.Json
