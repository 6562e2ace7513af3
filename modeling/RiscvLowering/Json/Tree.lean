import RiscvLowering.Json.Quoted

/-!
# Documents to be written

A document is a tree; its members keep their order. It is written compactly, or over several lines
with two blanks of indentation for each level; an empty container takes one line in either form.
-/

namespace RiscvLowering

/-- A JSON document whose numbers are integers. -/
inductive Json where
  | null
  | bool (b : Bool)
  | number (n : Int)
  | string (s : String)
  | array (items : List Json)
  | object (members : List (String × Json))

namespace Json

def boolChars (b : Bool) : List Char := if b then "true".toList else "false".toList

mutual

/-- A document on one line, without blanks. -/
def compactChars : Json → List Char
  | null => "null".toList
  | bool b => boolChars b
  | number n => n.repr.toList
  | string s => quote s
  | array [] => ['[', ']']
  | array (x :: xs) => '[' :: compactChars x ++ compactItems xs
  | object [] => ['{', '}']
  | object ((name, x) :: xs) => '{' :: quote name ++ ':' :: compactChars x ++ compactMembers xs

/-- The elements of an array after the first, with the bracket behind them. -/
def compactItems : List Json → List Char
  | [] => [']']
  | x :: xs => ',' :: compactChars x ++ compactItems xs

/-- The members of an object after the first, with the bracket behind them. -/
def compactMembers : List (String × Json) → List Char
  | [] => ['}']
  | (name, x) :: xs => ',' :: quote name ++ ':' :: compactChars x ++ compactMembers xs

end

/-- A new line of a level. -/
def newLine (level : Nat) : List Char := '\n' :: List.replicate (2 * level) ' '

mutual

/-- A document over several lines, when its first line stands at a level. -/
def prettyChars (level : Nat) : Json → List Char
  | null => "null".toList
  | bool b => boolChars b
  | number n => n.repr.toList
  | string s => quote s
  | array [] => ['[', ']']
  | array (x :: xs) =>
    '[' :: newLine (level + 1) ++ prettyChars (level + 1) x ++ prettyItems level xs
  | object [] => ['{', '}']
  | object ((name, x) :: xs) =>
    '{' :: newLine (level + 1) ++ quote name ++ ':' :: ' ' :: prettyChars (level + 1) x ++
      prettyMembers level xs

/-- The elements of an array after the first, with the bracket behind them. -/
def prettyItems (level : Nat) : List Json → List Char
  | [] => newLine level ++ [']']
  | x :: xs => ',' :: newLine (level + 1) ++ prettyChars (level + 1) x ++ prettyItems level xs

/-- The members of an object after the first, with the bracket behind them. -/
def prettyMembers (level : Nat) : List (String × Json) → List Char
  | [] => newLine level ++ ['}']
  | (name, x) :: xs =>
    ',' :: newLine (level + 1) ++ quote name ++ ':' :: ' ' :: prettyChars (level + 1) x ++
      prettyMembers level xs

end

/-- A document on one line. -/
def compact (j : Json) : String := String.ofList j.compactChars

/-- A document over several lines. -/
def pretty (j : Json) : String := String.ofList (j.prettyChars 0)

end Json

end RiscvLowering
