import ComponentTree.Library.Keysets

/-!
Values that rules share, by name.

Every value has a kind, and is found only when it is asked for by name and kind.
-/

namespace ComponentTree

/-- A shared value. -/
inductive Library.Entry where
  | text (s : String)
  | integer (i : Int)
  | texts (items : List String)
  | literal (v : Literal)
  | keysets (k : Keysets)

/-- The shared values, in the order in which their names were first used. -/
structure Library where
  entries : OrderedMap String Library.Entry := .empty

namespace Library

/-- Stores a value under a name. -/
def insert (l : Library) (name : String) (value : Entry) : Library :=
  ⟨l.entries.insert name value⟩

/-- The value under a name, of whatever kind. -/
def get? (l : Library) (name : String) : Option Entry := l.entries.get? name

/-- Whether a name is in use. -/
def contains (l : Library) (name : String) : Bool := l.entries.contains name

/-- Removes the value under a name. -/
def remove (l : Library) (name : String) : Library := ⟨l.entries.erase name⟩

/-- The names in order. -/
def names (l : Library) : List String := l.entries.keys

/-- The text under a name. -/
def text? (l : Library) (name : String) : Option String :=
  match l.get? name with
  | some (.text s) => some s
  | _ => none

/-- The integer under a name. -/
def integer? (l : Library) (name : String) : Option Int :=
  match l.get? name with
  | some (.integer i) => some i
  | _ => none

/-- The list of texts under a name. -/
def texts? (l : Library) (name : String) : Option (List String) :=
  match l.get? name with
  | some (.texts items) => some items
  | _ => none

/-- The literal under a name. -/
def literal? (l : Library) (name : String) : Option Literal :=
  match l.get? name with
  | some (.literal v) => some v
  | _ => none

/-- The keysets under a name. -/
def keysets? (l : Library) (name : String) : Option Keysets :=
  match l.get? name with
  | some (.keysets k) => some k
  | _ => none

/-- Appends a text to the list under a name, if there is one; gives its new length. -/
def push (l : Library) (name : String) (item : String) : Library × Option Nat :=
  match l.texts? name with
  | some items => (l.insert name (.texts (items ++ [item])), some (items.length + 1))
  | none => (l, none)

/-- The name under which rules find their strings. -/
def stringsName : String := "i18n"

/-- The keysets that rules use, if there are any. -/
def strings? (l : Library) : Option Keysets := l.keysets? stringsName

/-- Changes the keysets that rules use, and gives them. If there are none, new ones take their
name, whatever else had it. -/
def modifyStrings (l : Library) (f : Keysets → Keysets) : Library × Keysets :=
  let k := f (l.strings?.getD {})
  (l.insert stringsName (.keysets k), k)

/-- The library in one line. -/
def summary (l : Library) : String :=
  Summary.store "Library" [("names", Summary.list (l.names.map Summary.quoted))]

end Library

end ComponentTree
