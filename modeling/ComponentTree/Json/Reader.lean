import ComponentTree.Json.Printer

/-!
Reading JSON text.

The reader goes over the characters from left to right and reports the cause of the first fault it
meets: the text ends too early, or a character cannot stand where it does. What is accepted beyond
the grammar (how deep containers may nest, whether surrogates must pair up, which numbers exist) is
a policy, and so is what becomes of a member name that is repeated; literal data is read under the
strict one, values that are only skipped under the lenient one.
-/

namespace ComponentTree

/-- Why a JSON text was refused. -/
inductive ReadError where
  /-- The text ended too early. -/
  | truncated
  /-- The text is fine so far but of a wrong type or out of range. -/
  | mismatch
  /-- The text breaks the grammar or a limit of the reader. -/
  | malformed
deriving DecidableEq, Repr

namespace Json

/-- What a reader accepts beyond the grammar. -/
structure Policy (ν : Type) where
  /-- How many containers may stand inside one another; no limit if missing. -/
  maxDepth : Option Nat
  /-- Whether the two halves of a surrogate pair must come together. -/
  pairedSurrogates : Bool
  /-- The fault of a number at whose end the text ends. -/
  numberCutOff : ReadError
  /-- The value of a number, if it has one. -/
  number : NumberToken → Option ν
  /-- The object that the members make up. -/
  object : List (String × Json ν) → Json ν := .ofMembers

/-- Whether a character may stand between tokens. -/
def isBlank (c : Char) : Bool := c = ' ' || c = '\n' || c = '\t' || c = '\r'

/-- The text without the blanks in front. -/
def skipBlanks (cs : List Char) : List Char := cs.dropWhile isBlank

/-- The value of a hexadecimal digit. -/
def hexValue (c : Char) : Option Nat :=
  if '0' ≤ c && c ≤ '9' then some (c.toNat - 48)
  else if 'a' ≤ c && c ≤ 'f' then some (c.toNat - 87)
  else if 'A' ≤ c && c ≤ 'F' then some (c.toNat - 55)
  else none

/-- The value of four hexadecimal digits. -/
def hexValue4 (a b c d : Char) : Option Nat := do
  let a ← hexValue a
  let b ← hexValue b
  let c ← hexValue c
  let d ← hexValue d
  return ((a * 16 + b) * 16 + c) * 16 + d

/-- Whether a code unit is the first half of a pair. -/
def isLeadingSurrogate (n : Nat) : Bool := 0xD800 ≤ n && n ≤ 0xDBFF

/-- Whether a code unit is the second half of a pair. -/
def isTrailingSurrogate (n : Nat) : Bool := 0xDC00 ≤ n && n ≤ 0xDFFF

/-- The character that two halves stand for. -/
def pairedChar (lead trail : Nat) : Char :=
  Char.ofNat (0x10000 + (lead - 0xD800) * 0x400 + (trail - 0xDC00))

/-- The fault of an escape whose four digits are not all there: the text may have ended, which is
so when fewer than four bytes are left. -/
def shortEscape (cs : List Char) : ReadError :=
  if cs.foldl (fun n c => n + c.utf8Size) 0 < 4 then .truncated else .malformed

/-- The fault of a text that stands where the second half of a pair should. -/
def missingTrail : List Char → ReadError
  | [] => .truncated
  | ['\\'] => .truncated
  | '\\' :: 'u' :: cs => shortEscape cs
  | _ => .malformed

/-- The character of an escape that is one letter. -/
def simpleEscape (c : Char) : Option Char :=
  if c = '"' || c = '\\' || c = '/' then some c
  else if c = 'b' then some (Char.ofNat 8)
  else if c = 'f' then some (Char.ofNat 12)
  else if c = 'n' then some '\n'
  else if c = 'r' then some '\r'
  else if c = 't' then some '\t'
  else none

/-- Puts a character in front of a string that was read. -/
def prepend (c : Char) (r : Except ReadError (List Char × List Char)) :
    Except ReadError (List Char × List Char) :=
  r.map fun p => (c :: p.1, p.2)

/-- The rest of a string, from after its opening quote to its closing quote. -/
def readString (paired : Bool) : List Char → Except ReadError (List Char × List Char)
  | [] => .error .truncated
  | c :: cs =>
    if c = '"' then .ok ([], cs)
    else if c.toNat < 32 then .error .malformed
    else if c ≠ '\\' then prepend c (readString paired cs)
    else
      match cs with
      | [] => .error .truncated
      | e :: rest =>
        if e ≠ 'u' then
          match simpleEscape e with
          | some x => prepend x (readString paired rest)
          | none => .error .malformed
        else
          match rest with
          | h₁ :: h₂ :: h₃ :: h₄ :: rest =>
            match hexValue4 h₁ h₂ h₃ h₄ with
            | none => .error .malformed
            | some n =>
              if paired && isTrailingSurrogate n then .error .malformed
              else if paired && isLeadingSurrogate n then
                match rest with
                | b :: u :: l₁ :: l₂ :: l₃ :: l₄ :: tail =>
                  if b = '\\' && u = 'u' then
                    match hexValue4 l₁ l₂ l₃ l₄ with
                    | none => .error .malformed
                    | some m =>
                      if isTrailingSurrogate m then
                        prepend (pairedChar n m) (readString paired tail)
                      else .error .malformed
                  else .error .malformed
                | short => .error (missingTrail short)
              else prepend (Char.ofNat n) (readString paired rest)
          | short => .error (shortEscape short)

/-- Expects the rest of a keyword. -/
def readKeyword : List Char → List Char → Except ReadError (List Char)
  | [], cs => .ok cs
  | _ :: _, [] => .error .truncated
  | k :: ks, c :: cs => if c = k then readKeyword ks cs else .error .malformed

/-- The digits in front, of which there is at least one. -/
def readDigits (cutOff : ReadError) (cs : List Char) : Except ReadError (List Char × List Char) :=
  match cs with
  | [] => .error cutOff
  | c :: _ =>
    if c.isDigit then .ok (cs.takeWhile Char.isDigit, cs.dropWhile Char.isDigit)
    else .error .malformed

/-- The digits before the point: a zero stands alone. -/
def readWhole (cutOff : ReadError) (cs : List Char) : Except ReadError (List Char × List Char) :=
  match cs with
  | '0' :: c :: rest => if c.isDigit then .error .malformed else .ok (['0'], c :: rest)
  | _ => readDigits cutOff cs

/-- The fraction, if there is a point. -/
def readFraction (cutOff : ReadError) :
    List Char → Except ReadError (Option (List Char) × List Char)
  | '.' :: cs => (readDigits cutOff cs).map fun p => (some p.1, p.2)
  | cs => .ok (none, cs)

/-- The sign of an exponent: whether it is a minus. -/
def readSign : List Char → Bool × List Char
  | '+' :: cs => (false, cs)
  | '-' :: cs => (true, cs)
  | cs => (false, cs)

/-- The exponent, if there is one. -/
def readExponent (cutOff : ReadError) :
    List Char → Except ReadError (Option (Bool × List Char) × List Char)
  | c :: cs =>
    if c = 'e' || c = 'E' then
      let (negative, cs) := readSign cs
      (readDigits cutOff cs).map fun p => (some (negative, p.1), p.2)
    else .ok (none, c :: cs)
  | [] => .ok (none, [])

/-- A number without its minus sign. -/
def readUnsigned (cutOff : ReadError) (negative : Bool) (cs : List Char) :
    Except ReadError (NumberToken × List Char) := do
  let (whole, cs) ← readWhole cutOff cs
  let (fraction, cs) ← readFraction cutOff cs
  let (exponent, cs) ← readExponent cutOff cs
  return (⟨negative, whole, fraction, exponent⟩, cs)

/-- A number. -/
def readNumber (cutOff : ReadError) : List Char → Except ReadError (NumberToken × List Char)
  | '-' :: cs => readUnsigned cutOff true cs
  | cs => readUnsigned cutOff false cs

/-- What a value begins with. -/
inductive Opening where
  | null | true | false | number | string | array | object
deriving DecidableEq

/-- The kind of value that a character opens. -/
def opening? (c : Char) : Option Opening :=
  if c = 'n' then some .null
  else if c = 't' then some .true
  else if c = 'f' then some .false
  else if c = '"' then some .string
  else if c = '[' then some .array
  else if c = '{' then some .object
  else if c = '-' || c.isDigit then some .number
  else none

variable {ν : Type}

/-- A value without items or members, opened by the first character of the text. -/
def readScalar (policy : Policy ν) (kind : Opening) (c : Char) (cs : List Char) :
    Except ReadError (Json ν × List Char) :=
  match kind with
  | .null => (readKeyword ['u', 'l', 'l'] cs).map fun rest => (.null, rest)
  | .true => (readKeyword ['r', 'u', 'e'] cs).map fun rest => (.bool Bool.true, rest)
  | .false => (readKeyword ['a', 'l', 's', 'e'] cs).map fun rest => (.bool Bool.false, rest)
  | .string =>
    (readString policy.pairedSurrogates cs).map fun p => (.string (String.ofList p.1), p.2)
  | .number => do
    let (token, rest) ← readNumber policy.numberCutOff (c :: cs)
    match policy.number token with
    | some n => return (.number n, rest)
    | none => throw .malformed
  | _ => .error .malformed

/-- The depth inside one more container, if it may be entered. -/
def deeper : Option Nat → Except ReadError (Option Nat)
  | none => .ok none
  | some (n + 1) => .ok (some n)
  | some 0 => .error .malformed

/-- What follows an item or member: the end of the container, or a comma, which says that there is
one more. -/
def readSeparator (close : Char) (cs : List Char) : Except ReadError (Bool × List Char) :=
  match skipBlanks cs with
  | [] => .error .truncated
  | c :: rest =>
    if c = close then .ok (false, rest)
    else if c = ',' then .ok (true, rest)
    else .error .malformed

/-- The colon after the name of a member. -/
def readColon (cs : List Char) : Except ReadError (List Char) :=
  match skipBlanks cs with
  | [] => .error .truncated
  | c :: rest => if c = ':' then .ok rest else .error .malformed

/-- The name of a member and the colon after it. -/
def readName (policy : Policy ν) (cs : List Char) : Except ReadError (String × List Char) :=
  match skipBlanks cs with
  | [] => .error .truncated
  | c :: cs =>
    if c = '"' then do
      let (name, cs) ← readString policy.pairedSurrogates cs
      let rest ← readColon cs
      return (String.ofList name, rest)
    else .error .malformed

mutual

/-- A value, for which `depth` containers may be entered. The fuel bounds the values read, of
which a text has no more than characters. -/
def readValue (policy : Policy ν) :
    Nat → Option Nat → List Char → Except ReadError (Json ν × List Char)
  | 0, _, _ => .error .malformed
  | fuel + 1, depth, cs =>
    match skipBlanks cs with
    | [] => .error .truncated
    | c :: cs =>
      match opening? c with
      | none => .error .malformed
      | some .array => do
        let depth ← deeper depth
        match skipBlanks cs with
        | [] => throw .truncated
        | d :: rest =>
          if d = ']' then return (.array [], rest)
          else
            let (items, cs) ← readItems policy fuel depth (d :: rest)
            return (.array items, cs)
      | some .object => do
        let depth ← deeper depth
        match skipBlanks cs with
        | [] => throw .truncated
        | d :: rest =>
          if d = '}' then return (.object [], rest)
          else
            let (members, cs) ← readMembers policy fuel depth (d :: rest)
            return (policy.object members, cs)
      | some kind => readScalar policy kind c cs

/-- The items of an array from a first one on, to the closing bracket. -/
def readItems (policy : Policy ν) :
    Nat → Option Nat → List Char → Except ReadError (List (Json ν) × List Char)
  | 0, _, _ => .error .malformed
  | fuel + 1, depth, cs => do
    let (item, cs) ← readValue policy fuel depth cs
    let (more, cs) ← readSeparator ']' cs
    if more then
      let (items, cs) ← readItems policy fuel depth cs
      return (item :: items, cs)
    else return ([item], cs)

/-- The members of an object from a first one on, to the closing brace. -/
def readMembers (policy : Policy ν) :
    Nat → Option Nat → List Char → Except ReadError ((List (String × Json ν)) × List Char)
  | 0, _, _ => .error .malformed
  | fuel + 1, depth, cs => do
    let (name, cs) ← readName policy cs
    let (value, cs) ← readValue policy fuel depth cs
    let (more, cs) ← readSeparator '}' cs
    if more then
      let (members, cs) ← readMembers policy fuel depth cs
      return ((name, value) :: members, cs)
    else return ([(name, value)], cs)

end

/-- Reads one value at the front of a text. -/
def readFront (policy : Policy ν) (cs : List Char) : Except ReadError (Json ν × List Char) :=
  readValue policy (2 * cs.length + 2) policy.maxDepth cs

/-- The end of a text, after which only blanks may stand. -/
def readEnd (cs : List Char) : Except ReadError Unit :=
  if (skipBlanks cs).isEmpty then .ok () else .error .malformed

/-- Reads a text that holds one value and nothing else. -/
def read (policy : Policy ν) (text : String) : Except ReadError (Json ν) := do
  let (v, rest) ← readFront policy text.toList
  readEnd rest
  return v

end Json

/-- How literal data is read: at most 127 containers inside one another, surrogates in pairs, and
only numbers that binary64 can hold. -/
def Literal.policy : Json.Policy Json.Number where
  maxDepth := some 127
  pairedSurrogates := true
  numberCutOff := .truncated
  number := NumberToken.number?

/-- How a value is read that nobody looks at. -/
def Literal.skipping : Json.Policy Unit where
  maxDepth := none
  pairedSurrogates := false
  numberCutOff := .malformed
  number := fun _ => some ()

/-- Reads literal data. -/
def Literal.read (text : String) : Except ReadError Literal := Json.read Literal.policy text

end ComponentTree
