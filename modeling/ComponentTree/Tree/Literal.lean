import ComponentTree.Tree

/-!
Trees as literal data, and back.

An object is a record: its members `component`, `part`, `variant`, `content` and `mixins` are
fields when they have a fitting type, and every other member is a parameter. Going back, a record
gives its fields and parameters and nothing of its rendering, so a member name can come up twice
when a parameter has the name of a field that was set later.
-/

namespace ComponentTree

/-- An attribute value from a literal: `true` is a flag, `false` and `null` are not written, and
everything else is its text. -/
def Attr.ofLiteral : Literal → Attr
  | .null | .bool false => .null
  | .bool true => .flag
  | .string s => .text s
  | v => .text (Literal.print v)

/-- A state value from a literal: everything but booleans and `null` is its text. -/
def StateValue.ofLiteral : Literal → StateValue
  | .null => .null
  | .bool b => .bool b
  | .string s => .text s
  | v => .text (Literal.print v)

/-- An attribute value from a boolean: a flag, or nothing written. -/
def Attr.ofBool (b : Bool) : Attr := if b then .flag else .null

/-- An attribute value from a text that may be missing. -/
def Attr.ofText? : Option String → Attr
  | some s => .text s
  | none => .null

/-- A state value from a text that may be missing. -/
def StateValue.ofText? : Option String → StateValue
  | some s => .text s
  | none => .null

/-- The literal of an attribute value. -/
def Attr.toLiteral : Attr → Literal
  | .flag => .bool true
  | .text s => .string s
  | .null => .null

/-- The literal of a state value. -/
def StateValue.toLiteral : StateValue → Literal
  | .bool b => .bool b
  | .text s => .string s
  | .null => .null

/-- Writes a literal member into a record; `node` is the member's value read as a tree. -/
def Record.setMember (r : Record) (name : String) (value : Literal) (node : Node) : Record :=
  let param := { r with params := r.params.insert name value }
  if name = "content" then { r with content := node }
  else if name = "component" then
    match value with
    | .string s => { r with component := some s }
    | _ => param
  else if name = "part" then
    match value with
    | .string s => { r with part := some s }
    | _ => param
  else if name = "variant" then
    match value with
    | .string s => { r with variant := some s }
    | _ => param
  else if name = "mixins" then
    match node with
    | .list items => { r with mixins := items }
    | .record m => { r with mixins := r.mixins ++ [.record m] }
    | _ => param
  else param

mutual

/-- The tree that literal data stands for; its records have no identity yet. -/
def Node.ofLiteral : Literal → Node
  | .null => .absent
  | .bool false => .absent
  | .bool true => .bool true
  | .number n => .number n.toBinary64
  | .string s => .text s
  | .array items => .list (Node.ofLiterals items)
  | .object members => .record (Record.ofMembers .blank members)

/-- The trees that a list of literals stands for. -/
def Node.ofLiterals : List Literal → List Node
  | [] => []
  | v :: vs => Node.ofLiteral v :: Node.ofLiterals vs

/-- The record with the given members written into it, one after the other. -/
def Record.ofMembers (r : Record) : List (String × Literal) → Record
  | [] => r
  | (name, v) :: rest => Record.ofMembers (r.setMember name v (Node.ofLiteral v)) rest

end

/-- The literal of a number: an integer if it has no fractional part and is below `2 ^ 53`, and
`null` if it is not finite. -/
def Binary64.toLiteral : Binary64 → Literal
  | .finite x =>
    match x.toInt? with
    | some i =>
      if h : i.natAbs < 9007199254740992 then .number (.integer ⟨i, by omega⟩)
      else .number (.float x)
    | none => .number (.float x)
  | _ => .null

/-- A member that is written only if there is a text for it. -/
def textMember (name : String) : Option String → List (String × Literal)
  | some s => [(name, .string s)]
  | none => []

mutual

/-- The literal data of a tree. -/
def Node.toLiteral : Node → Literal
  | .absent => .null
  | .bool b => .bool b
  | .number x => x.toLiteral
  | .text s => .string s
  | .list items => .array (Node.toLiterals items)
  | .record r => .object (Record.members r)

/-- The literal data of a list of trees. -/
def Node.toLiterals : List Node → List Literal
  | [] => []
  | n :: ns => Node.toLiteral n :: Node.toLiterals ns

/-- The members of a record: its set fields and its parameters. -/
def Record.members : Record → List (String × Literal)
  | { component, part, variant, params, content, mixins, .. } =>
    textMember "component" component ++ textMember "part" part ++ textMember "variant" variant ++
    params.entries ++
    (if content.isAbsent then [] else [("content", Node.toLiteral content)]) ++
    (if mixins.isEmpty then [] else [("mixins", .array (Node.toLiterals mixins))])

end

end ComponentTree
