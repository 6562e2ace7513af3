import RiscvLowering.Json.Token

/-!
# Quoted strings

A string is written between quotes: quotes, backslashes and control characters are escaped and all
other characters stand for themselves. Reading also takes the other escapes of the format, among
them a character given by one or two hexadecimal units.
-/

namespace RiscvLowering.Json

/-- A digit of a hexadecimal number, in lower case. -/
def hexDigit (n : Nat) : Char := Nat.digitChar n

/-- How a character is written inside a string. -/
def escape (c : Char) : List Char :=
  if c = '"' then ['\\', '"']
  else if c = '\\' then ['\\', '\\']
  else if c = '\x08' then ['\\', 'b']
  else if c = '\x0c' then ['\\', 'f']
  else if c = '\n' then ['\\', 'n']
  else if c = '\r' then ['\\', 'r']
  else if c = '\t' then ['\\', 't']
  else if c.toNat < 0x20 then
    ['\\', 'u', '0', '0', hexDigit (c.toNat / 16), hexDigit (c.toNat % 16)]
  else [c]

def quote (s : String) : List Char :=
  '"' :: s.toList.flatMap escape ++ ['"']

/-- The value of a hexadecimal digit in either case. -/
def hexValue? (c : Char) : Option Nat :=
  if c.isDigit then some (c.toNat - '0'.toNat)
  else if 'a' ≤ c ∧ c ≤ 'f' then some (c.toNat - 'a'.toNat + 10)
  else if 'A' ≤ c ∧ c ≤ 'F' then some (c.toNat - 'A'.toNat + 10)
  else none

/-- Takes four hexadecimal digits off the front. They take four bytes of text, so a text with fewer
bytes ends too early whatever it holds. -/
def hexUnit : Reader Nat
  | a :: b :: c :: d :: cs =>
    match hexValue? a, hexValue? b, hexValue? c, hexValue? d with
    | some a, some b, some c, some d => .ok (((a * 16 + b) * 16 + c) * 16 + d, cs)
    | _, _, _, _ => .error .malformed
  | cs => if (String.ofList cs).utf8ByteSize < 4 then .error .truncated else .error .malformed

/-- The first half of a pair of units. -/
def isHighHalf (u : Nat) : Bool := 0xD800 ≤ u && u ≤ 0xDBFF

/-- The second half of a pair of units. -/
def isLowHalf (u : Nat) : Bool := 0xDC00 ≤ u && u ≤ 0xDFFF

def ofHalves (high low : Nat) : Char :=
  Char.ofNat (0x10000 + (high - 0xD800) * 0x400 + (low - 0xDC00))

/-- Takes the second unit of a pair off the front and gives the character of both. -/
def secondHalf (high : Nat) : Reader Char
  | [] | ['\\'] => .error .truncated
  | '\\' :: 'u' :: cs => do
    let (low, cs) ← hexUnit cs
    if isLowHalf low then return (ofHalves high low, cs) else throw .malformed
  | _ => .error .malformed

/-- The character of an escape of one letter. -/
def letterEscape? : Char → Option Char
  | '"' => some '"'
  | '\\' => some '\\'
  | '/' => some '/'
  | 'b' => some '\x08'
  | 'f' => some '\x0c'
  | 'n' => some '\n'
  | 'r' => some '\r'
  | 't' => some '\t'
  | _ => none

/-- Takes what follows a backslash off the front. A string that is only skipped may hold halves of
pairs alone: then `paired` is false and every unit stands for itself. -/
def readEscape (paired : Bool) : Reader Char
  | [] => .error .truncated
  | 'u' :: cs => do
    let (u, cs) ← hexUnit cs
    -- nothing looks at a string that is passed over, so it need not make sense
    if !paired then return (Char.ofNat u, cs)
    -- the second half of a pair never comes first
    else if isLowHalf u then throw .malformed
    else if isHighHalf u then secondHalf u cs
    else return (Char.ofNat u, cs)
  | c :: cs =>
    match letterEscape? c with
    | some d => .ok (d, cs)
    | none => .error .malformed

/-- A unit takes something off the text. -/
theorem hexUnit_length {cs : List Char} {p : Nat × List Char} (h : hexUnit cs = .ok p) :
    p.2.length < cs.length := by
  unfold hexUnit at h
  split at h
  · split at h
    · simp only [Except.ok.injEq] at h
      simp only [← h, List.length_cons]
      omega
    · simp at h
  · split at h <;> simp at h

/-- So does the second half of a pair. -/
theorem secondHalf_length {high : Nat} {cs rest : List Char} {c : Char}
    (h : secondHalf high cs = .ok (c, rest)) : rest.length < cs.length := by
  unfold secondHalf at h
  split at h
  · simp at h
  · simp at h
  · rename_i cs
    cases hu : hexUnit cs with
    | error e => simp [hu, bind, Except.bind] at h
    | ok p =>
      simp only [hu, bind, Except.bind] at h
      split at h
      · simp only [pure, Except.pure, Except.ok.injEq, Prod.mk.injEq] at h
        have := hexUnit_length hu
        simp only [← h.2, List.length_cons]
        omega
      · simp [throw, throwThe, MonadExceptOf.throw] at h
  · simp at h

/-- An escape takes something off the text, which is what reading ends by. -/
theorem readEscape_length {paired : Bool} {cs rest : List Char} {c : Char}
    (h : readEscape paired cs = .ok (c, rest)) : rest.length < cs.length := by
  unfold readEscape at h
  split at h
  · simp at h
  · rename_i cs
    cases hu : hexUnit cs with
    | error e => simp [hu, bind, Except.bind] at h
    | ok p =>
      have hp := hexUnit_length hu
      simp only [hu, bind, Except.bind, pure, Except.pure, throw, throwThe,
        MonadExceptOf.throw] at h
      simp only [List.length_cons]
      split at h
      · simp only [Except.ok.injEq, Prod.mk.injEq] at h
        simp only [← h.2]
        omega
      · split at h
        · simp at h
        · split at h
          · have := secondHalf_length h
            omega
          · simp only [Except.ok.injEq, Prod.mk.injEq] at h
            simp only [← h.2]
            omega
  · split at h
    · simp only [Except.ok.injEq, Prod.mk.injEq] at h
      simp [← h.2]
    · simp at h

/-- Takes a string off the front of a text that starts behind its opening quote; `read` holds what
was read before, last character first. -/
def unquoteFrom (paired : Bool) (read : List Char) : Reader String
  | [] => .error .truncated
  | '"' :: cs => .ok (String.ofList read.reverse, cs)
  | '\\' :: cs =>
    match _h : readEscape paired cs with
    | .ok (c, rest) => unquoteFrom paired (c :: read) rest
    | .error e => .error e
  | c :: cs =>
    if c.toNat < 0x20 then .error .malformed else unquoteFrom paired (c :: read) cs
termination_by cs => cs.length
decreasing_by
  · have := readEscape_length _h
    simp only [List.length_cons]
    omega
  · simp

/-- An escape adds the character that it stands for. -/
theorem unquoteFrom_backslash {paired : Bool} {read cs rest : List Char} {c : Char}
    (h : readEscape paired cs = .ok (c, rest)) :
    unquoteFrom paired read ('\\' :: cs) = unquoteFrom paired (c :: read) rest := by
  rw [unquoteFrom]
  split
  · rename_i heq
    rw [h] at heq
    obtain ⟨rfl, rfl⟩ := Prod.mk.inj (Except.ok.inj heq)
    rfl
  · rename_i heq
    rw [h] at heq
    simp at heq

/-- Takes a string off the front of a text that starts behind its opening quote. -/
def unquote : Reader String := unquoteFrom true []

/-- Passes over a string, in which halves of pairs may stand alone. -/
def skipString (cs : List Char) : Except Fault (List Char) :=
  (unquoteFrom false [] cs).map (·.2)

end RiscvLowering.Json
