import ComponentTree.Json.Printer
import ComponentTree.Summary

/-!
Localized strings, by keyset and key.

Adding a keyset replaces one of the same name as a whole; adding a computed entry keeps the others.
A string that is not there is missing for one of two causes: its keyset or its key.
-/

namespace ComponentTree

namespace Keysets

/-- An entry of a keyset. -/
inductive Entry where
  | text (s : String)
  /-- Made from the options of the lookup. -/
  | computed (format : Literal → String)

/-- A string that is not there. -/
inductive Missing where
  | keyset (keyset : String)
  | key (keyset key : String)
deriving DecidableEq, Repr

/-- The message for a string that is not there. -/
def Missing.message : Missing → String
  | .keyset set => "Keyset \"" ++ set ++ "\" was not found"
  | .key set name => "Key \"" ++ name ++ "\" in keyset \"" ++ set ++ "\" was not found"

/-- The string of an entry. -/
def Entry.resolve (options : Literal) : Entry → String
  | .text s => s
  | .computed format => format options

end Keysets

/-- Keysets by name, and the current language. -/
structure Keysets where
  sets : OrderedMap String (OrderedMap String Keysets.Entry) := .empty
  language : String := "ru"

namespace Keysets

/-- Adds a keyset; of a repeated key the last value counts. -/
def add (k : Keysets) (keyset : String) (entries : List (String × Entry)) : Keysets :=
  { k with sets := k.sets.insert keyset (.ofList entries) }

/-- Adds a computed entry to a keyset, which is created if it is not there. -/
def addComputed (k : Keysets) (keyset key : String) (format : Literal → String) : Keysets :=
  let entries := (k.sets.get? keyset).getD .empty
  { k with sets := k.sets.insert keyset (entries.insert key (.computed format)) }

/-- Sets the language. -/
def setLanguage (k : Keysets) (language : String) : Keysets := { k with language }

/-- Whether there is a keyset of this name. -/
def contains (k : Keysets) (keyset : String) : Bool := k.sets.contains keyset

/-- The string for a key, with options for computed entries. -/
def lookupWith (k : Keysets) (keyset key : String) (options : Literal) : Except Missing String :=
  match k.sets.get? keyset with
  | none => .error (.keyset keyset)
  | some entries =>
    match entries.get? key with
    | none => .error (.key keyset key)
    | some entry => .ok (entry.resolve options)

/-- The string for a key; computed entries get `null`. -/
def lookup (k : Keysets) (keyset key : String) : Except Missing String :=
  k.lookupWith keyset key .null

/-- An entry in a summary. -/
def Entry.summary : Entry → String
  | .text s => "Text(" ++ Summary.quoted s ++ ")"
  | .computed _ => "Computed(..)"

/-- The keysets in one line. -/
def summary (k : Keysets) : String :=
  Summary.store "Keysets"
    [("keysets", Summary.map (k.sets.entries.map fun set =>
        (set.1, Summary.map (set.2.entries.map fun e => (e.1, e.2.summary))))),
      ("language", Summary.quoted k.language)]

end Keysets

end ComponentTree
