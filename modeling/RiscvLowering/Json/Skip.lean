import RiscvLowering.Json.Numeral
import RiscvLowering.Json.Quoted

/-!
# Passing over values

The value of an unknown field is passed over, not read: it has to be well-formed, at any depth, and
nothing else is asked of it. The brackets that are open form a stack, so depth costs no recursion.
-/

namespace RiscvLowering.Json

/-- A bracket that is open. -/
inductive Frame where
  | array
  | object
deriving DecidableEq

def Frame.close : Frame → Char
  | array => ']'
  | object => '}'

/-- What comes next while a value is passed over. -/
inductive Ahead where
  /-- A value, or the end of a container that has just been opened. -/
  | first
  /-- A value, after a comma. -/
  | next
  /-- What follows a value: a comma or a closing bracket. -/
  | after
deriving DecidableEq

/-- Passes over a numeral; any fault in its shape makes the text no JSON. -/
def skipNumber (cs : List Char) : Except Fault (List Char) :=
  match Numeral.scan cs with
  | .ok (_, cs) => .ok cs
  | .error _ => .error .malformed

/-- Passes over a key and its colon. -/
def skipKey (cs : List Char) : Except Fault (List Char) := do
  let cs ← punctuation '"' cs
  let cs ← skipString cs
  punctuation ':' cs

/-- Passes over a value that is no container, or over the bracket that opens one. -/
def skipHead : List Char → Except Fault (Option Frame × List Char)
  | [] => .error .truncated
  | c :: cs =>
    if c = '[' then .ok (some .array, cs)
    else if c = '{' then .ok (some .object, cs)
    else if c = '"' then (skipString cs).map (none, ·)
    else if c = '-' ∨ c.isDigit then (skipNumber (c :: cs)).map (none, ·)
    else if c = 'n' then (literal "ull".toList cs).map (none, ·)
    else if c = 't' then (literal "rue".toList cs).map (none, ·)
    else if c = 'f' then (literal "alse".toList cs).map (none, ·)
    else .error .malformed

/-- Passes over one value in a container, with its key in an object. -/
def skipMember (frame : Option Frame) (cs : List Char) : Except Fault (Option Frame × List Char) :=
  match frame with
  | some .object => do skipHead (skipBlanks (← skipKey cs))
  | _ => skipHead (skipBlanks cs)

/-- Passes over a member and says what is ahead: the inside of the member, or what follows it. -/
def enterMember (opened : List Frame) (cs : List Char) :
    Except Fault (List Frame × Ahead × List Char) := do
  match ← skipMember opened.head? cs with
  | (some frame, cs) => return (frame :: opened, .first, cs)
  | (none, cs) => return (opened, .after, cs)

/-- Passes over one token or member when the brackets in `opened` are open, innermost first. -/
def skipStep (opened : List Frame) (ahead : Ahead) (cs : List Char) :
    Except Fault (List Frame × Ahead × List Char) :=
  match opened, ahead, skipBlanks cs with
  | frame :: outer, .first, c :: cs =>
    if c = frame.close then .ok (outer, .after, cs) else enterMember opened (c :: cs)
  | frame :: outer, .after, c :: cs =>
    -- what has to follow the comma is a member, which no bracket is
    if c = ',' then enterMember opened cs
    else if c = frame.close then .ok (outer, .after, cs)
    else .error .malformed
  | _ :: _, .first, [] | _ :: _, .after, [] => .error .truncated
  | _, _, cs => enterMember opened cs

/-- Passes over what is left of a value. Every step takes a character, so the length of the text is
fuel enough. -/
def skipLoop : Nat → List Frame → Ahead → List Char → Except Fault (List Char)
  | _, [], .after, cs => .ok cs
  | 0, _, _, _ => .error .malformed
  | fuel + 1, opened, ahead, cs =>
    match skipStep opened ahead cs with
    | .ok (opened, ahead, cs) => skipLoop fuel opened ahead cs
    | .error e => .error e

/-- Passes over a value. -/
def skipValue (cs : List Char) : Except Fault (List Char) :=
  skipLoop (cs.length + 1) [] .next cs

end RiscvLowering.Json
