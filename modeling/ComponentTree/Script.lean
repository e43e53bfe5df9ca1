import ComponentTree.Expansion

/-!
Rules as data.

A script is a list of actions over two kinds of expressions: those that give literal values and
those that give trees. Scripts can do what rules can do through their context, and they share a
memory of saved trees and a log.
-/

namespace ComponentTree.Script

/-- What a script can ask about its record. -/
inductive Query where
  | position | isFirst | isLast
  | tag | component | variant | part
  | classes | data | autoInit
  | mixinCount
  /-- The text of the content, if it is a primitive. -/
  | contentText
  /-- The language of the keysets. -/
  | language
  | attr (name : String)
  | state (name : String)
  | param (name : String)
  /-- A parameter that is a text. -/
  | paramText (name : String)
  | initOption (name : String)
  /-- A text in the library. -/
  | library (name : String)

/-- An expression for a literal value. -/
inductive ValueExpr where
  | lit (v : Literal)
  /-- The bare texts of values, joined. -/
  | concat (parts : List ValueExpr)
  | add (x : ValueExpr) (n : Int)
  | eq (x y : ValueExpr)
  | lt (x y : ValueExpr)
  | not (x : ValueExpr)
  /-- The text of a value, escaped for content. -/
  | escape (x : ValueExpr)
  | ask (query : Query)
  /-- A new identifier. -/
  | freshId
  /-- A string from a keyset. -/
  | lookup (keyset : String) (key options : ValueExpr)

instance : Inhabited ValueExpr := ⟨.lit .null⟩

/-- How a saved tree is used. -/
inductive Use where
  /-- It is taken out of the memory. -/
  | take
  | snapshot
  | clone

/-- The flags of a record. -/
structure Flags where
  classDisabled : Bool := false
  dataDisabled : Bool := false
  stopped : Bool := false
  autoInit : Option Bool := none

/-- The fields of a new record that are given by values. -/
structure Fields where
  component : ValueExpr
  part : ValueExpr
  variant : ValueExpr
  params : List (String × ValueExpr)
  tag : ValueExpr
  attrs : List (String × ValueExpr)
  state : List (String × ValueExpr)
  flags : Flags
  initOptions : Option (List (String × ValueExpr))

/-- What a tree is wrapped in. -/
inductive Wrapper where
  | list
  /-- A plain record around it. -/
  | element
  /-- A part around a list of it alone. -/
  | part (name : String)
  /-- A component around it. -/
  | component (name : String)

/-- An expression for a tree. -/
inductive NodeExpr where
  | lit (v : Literal)
  | value (x : ValueExpr)
  | text (x : ValueExpr)
  | bool (b : Bool)
  | number (x : Binary64)
  /-- A new record that has only a component. -/
  | component (name : String)
  | part (name : String)
  | element
  | record (fields : Fields) (content : NodeExpr) (mixins : List NodeExpr)
  | clone (x : NodeExpr)
  | list (items : List NodeExpr)
  | flatten (items : List NodeExpr)
  | repeated (n : Nat) (x : NodeExpr)
  | nest (n : Nat) (wrapper : Wrapper) (x : NodeExpr)
  | saved (name : String) (use : Use)
  /-- The record, or what replaced it. -/
  | whole
  | content
  | contentSnapshot
  | takeContent
  | mixins
  | param (name : String)

instance : Inhabited NodeExpr := ⟨.lit .null⟩

/-- An action of a script. -/
inductive Action where
  | setTag (x : ValueExpr)
  | setAttr (name : String) (x : ValueExpr)
  | setAttrPosition (name : String)
  | setClasses (on : Bool)
  | setData (on : Bool)
  | setState (name : String)
  | setStateValue (name : String) (x : ValueExpr)
  | setContent (x : NodeExpr)
  | addMixin (x : NodeExpr)
  | enableAutoInit
  | setInitOption (name : String) (x : ValueExpr)
  | stop
  /-- Runs the record's other rules. -/
  | runAhead
  | save (name : String) (x : NodeExpr)
  | log (x : ValueExpr)
  /-- Enters what the script sees into the log. -/
  | probe
  | branch (condition : ValueExpr) (yes no : List Action)
  | answer (x : NodeExpr)
  | keep
  | fail (selector : String) (message : ValueExpr)

instance : Inhabited Action := ⟨.keep⟩

/-- What a script saw of its record. -/
structure Probe where
  position : Nat
  isFirst : Bool
  isLast : Bool
  tag : Option String
  component : Option String
  variant : Option String
  part : Option String
  classes : Bool
  data : Bool
  autoInit : Bool
  content : Node
  mixinCount : Nat
  tree : Node

/-- An entry of the log. -/
inductive LogEntry where
  | value (v : Literal)
  | probe (p : Probe)

/-- The memory of scripts. -/
structure Memory where
  saved : OrderedMap String Node := .empty
  log : List LogEntry := []

/-- A piece of a computed string. -/
inductive Piece where
  | text (s : String)
  /-- A member of the options. -/
  | field (name : String)

/-- The text of a piece: a member that is missing gives nothing. -/
def Piece.resolve (options : Literal) : Piece → String
  | .text s => s
  | .field name => Literal.bareText ((options.member? name).getD .null)

/-- The entry of a keyset that joins pieces. -/
def computedEntry (pieces : List Piece) (options : Literal) : String :=
  String.join (pieces.map (Piece.resolve options))

end ComponentTree.Script
