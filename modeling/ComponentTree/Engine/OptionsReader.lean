import ComponentTree.Json.Reader
import ComponentTree.Engine.Options

/-!
Options from JSON text.

An object gives options by name, in any order and each at most once; names that are not known are
skipped. An array gives them in order. What is missing keeps its default. Reading goes from left to
right and reports the first fault.
-/

namespace ComponentTree.Options

open Json

/-- An option by name. -/
inductive Field where
  | guard
  | limit
  | idPrefix
deriving DecidableEq

/-- The option that a name stands for. -/
def Field.ofName? (name : String) : Option Field :=
  if name = "divergenceGuard" then some .guard
  else if name = "divergenceLimit" then some .limit
  else if name = "idPrefix" then some .idPrefix
  else none

/-- Writes a value into an option; a value of a wrong type or out of range does not fit. -/
def set? (options : Options) : Field → Literal → Option Options
  | .guard, .bool b => some { options with divergenceGuard := b }
  | .limit, .number (.integer n) =>
    if 0 ≤ n.value ∧ n.value < 4294967296 then
      some { options with divergenceLimit := UInt32.ofNat n.value.toNat }
    else none
  | .idPrefix, .string s => some { options with idPrefix := s }
  | _, _ => none

/-- Reads the value of an option. Arrays and objects are refused as soon as they open; other values
are read to their end first. -/
def readField (options : Options) (field : Field) (cs : List Char) :
    Except ReadError (Options × List Char) :=
  match skipBlanks cs with
  | [] => .error .truncated
  | c :: cs =>
    match opening? c with
    | none => .error .malformed
    | some .array => .error .mismatch
    | some .object => .error .mismatch
    | some kind => do
      let (value, rest) ← readScalar Literal.policy kind c cs
      match options.set? field value with
      | some options => return (options, rest)
      | none => throw .mismatch

/-- The end of an array whose options have all been read. -/
def readClose (cs : List Char) : Except ReadError (List Char) :=
  match skipBlanks cs with
  | [] => .error .truncated
  | c :: rest => if c = ']' then .ok rest else .error .malformed

/-- The options that an array still gives, from the first one on. -/
def readOrdered (options : Options) : List Field → List Char →
    Except ReadError (Options × List Char)
  | [], cs => (readClose cs).map fun rest => (options, rest)
  | field :: more, cs => do
    let (options, cs) ← options.readField field cs
    if more.isEmpty then options.readOrdered more cs
    else
      let (another, cs) ← readSeparator ']' cs
      if another then options.readOrdered more cs else return (options, cs)

/-- The options that an object gives, from a first name on; `seen` are the options that it gave
before. The fuel bounds the members, of which a text has no more than characters. -/
def readNamed :
    Nat → Options → List Field → List Char → Except ReadError (Options × List Char)
  | 0, _, _, _ => .error .malformed
  | fuel + 1, options, seen, cs =>
    match skipBlanks cs with
    | [] => .error .truncated
    | c :: cs =>
      if c ≠ '"' then .error .malformed
      else do
        let (name, cs) ← readString true cs
        let (options, seen, cs) ←
          match Field.ofName? (String.ofList name) with
          | some field =>
            if seen.contains field then throw .mismatch
            else do
              let cs ← readColon cs
              let (options, cs) ← options.readField field cs
              pure (options, field :: seen, cs)
          | none => do
            let cs ← readColon cs
            let (_, cs) ← readFront Literal.skipping cs
            pure (options, seen, cs)
        let (another, cs) ← readSeparator '}' cs
        if another then readNamed fuel options seen cs else return (options, cs)

/-- Reads options at the front of a text. -/
def readFront (cs : List Char) : Except ReadError (Options × List Char) :=
  match skipBlanks cs with
  | [] => .error .truncated
  | c :: cs =>
    match opening? c with
    | none => .error .malformed
    | some .array =>
      match skipBlanks cs with
      | [] => .error .truncated
      | d :: rest =>
        if d = ']' then .ok ({}, rest)
        else readOrdered {} [.guard, .limit, .idPrefix] (d :: rest)
    | some .object =>
      match skipBlanks cs with
      | [] => .error .truncated
      | d :: rest => if d = '}' then .ok ({}, rest) else readNamed (cs.length + 1) {} [] (d :: rest)
    | some kind => do
      let _ ← readScalar Literal.policy kind c cs
      throw .mismatch

/-- Reads options from a text that holds nothing else. -/
def read (text : String) : Except ReadError Options := do
  let (options, rest) ← readFront text.toList
  readEnd rest
  return options

end ComponentTree.Options
