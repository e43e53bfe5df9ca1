import ComponentTree.Json.Printer

/-!
Trees of components.

A node is a record, a list, a primitive, or absent. A record belongs to a component, is a part of
one, or is plain markup; it carries literal parameters, content, mixins, and the rendering that
rules fill in. Its key is its identity: copies of one record may share it, and equality of nodes
does not look at it.
-/

namespace ComponentTree

/-- The identity of a record. Zero is given to records that have none yet. -/
abbrev Key := Nat

/-- The value of an attribute. -/
inductive Attr where
  /-- Written as a bare name. -/
  | flag
  | text (s : String)
  /-- Not written. -/
  | null
deriving DecidableEq, Repr

/-- The value of a component state. -/
inductive StateValue where
  | bool (b : Bool)
  | text (s : String)
  | null
deriving DecidableEq, Repr

/-- Whether the state shows in the class: `false`, `null` and the empty text do not. -/
def StateValue.isSet : StateValue → Bool
  | .bool b => b
  | .text s => s ≠ ""
  | .null => false

/-- What rules write about how a record is rendered. -/
structure Rendering where
  tag : Option String := none
  attrs : OrderedMap String Attr := .empty
  /-- No class is written. -/
  classDisabled : Bool := false
  /-- The component's name is not written as data. -/
  dataDisabled : Bool := false
  /-- No further rules run. -/
  stopped : Bool := false
  /-- Whether the record is initialized on the client; not decided yet if missing. -/
  autoInit : Option Bool := none
  state : OrderedMap String StateValue := .empty
  /-- Options for the client; there may be an empty set of them. -/
  initOptions : Option (OrderedMap String Literal) := none

mutual

/-- A node of a tree. -/
inductive Node where
  /-- Left out of the tree. -/
  | absent
  /-- A boolean; `false` counts as absent. -/
  | bool (b : Bool)
  | number (x : Binary64)
  /-- Text that is written as it is. -/
  | text (s : String)
  | list (items : List Node)
  | record (r : Record)

/-- A record: a component, a part of one, or plain markup. -/
structure Record where
  key : Key
  component : Option String
  part : Option String
  variant : Option String
  /-- Every other literal member. -/
  params : OrderedMap String Literal
  content : Node
  /-- Nodes laid over the same element. -/
  mixins : List Node
  rendering : Rendering

end

/-- A plain record without content that has no identity yet. -/
def Record.blank : Record :=
  { key := 0, component := none, part := none, variant := none, params := .empty,
    content := .absent, mixins := [], rendering := {} }

instance : Inhabited Node := ⟨.absent⟩

instance : Inhabited Record := ⟨.blank⟩

namespace Node

/-- Whether the node counts as left out. -/
def isAbsent : Node → Bool
  | .absent | .bool false => true
  | _ => false

/-- Whether the node is a list. -/
def isList : Node → Bool
  | .list _ => true
  | _ => false

/-- Whether expansion goes into the node. -/
def isInner : Node → Bool
  | .list _ | .record _ => true
  | _ => false

/-- The record, if the node is one. -/
def record? : Node → Option Record
  | .record r => some r
  | _ => none

/-- The items, if the node is a list. -/
def items? : Node → Option (List Node)
  | .list items => some items
  | _ => none

/-- The text of a primitive. -/
def scalarText : Node → Option String
  | .bool true => some "true"
  | .number x => some x.display
  | .text s => some s
  | _ => none

/-- The nodes of nested lists that are no lists themselves, from left to right. -/
def leaves : List Node → List Node
  | [] => []
  | .list inner :: rest => leaves inner ++ leaves rest
  | node :: rest => node :: leaves rest

/-- Nested lists made one list. Absent entries stay, and a flat list is left alone. -/
def flatten (items : List Node) : List Node :=
  if items.any isList then leaves items else items

/-- A record whose content is a list gets the flattened list; other content stays. -/
def flattenContent : Node → Node
  | .list items => .list (flatten items)
  | node => node

end Node

/-- Equality of what rules wrote, with maps compared without order. -/
def Rendering.same (a b : Rendering) : Bool :=
  a.tag == b.tag && OrderedMap.sameBy (· == ·) a.attrs b.attrs &&
  a.classDisabled == b.classDisabled && a.dataDisabled == b.dataDisabled &&
  a.stopped == b.stopped && a.autoInit == b.autoInit &&
  OrderedMap.sameBy (· == ·) a.state b.state &&
  match a.initOptions, b.initOptions with
  | none, none => true
  | some m, some n => OrderedMap.sameBy Literal.same m n
  | _, _ => false

mutual

/-- Equality of nodes: identities do not count, maps have no order, and numbers compare
numerically. -/
def Node.same : Node → Node → Bool
  | .absent, .absent => true
  | .bool a, .bool b => a == b
  | .number x, .number y => x.same y
  | .text s, .text t => s == t
  | .list xs, .list ys => Node.sameAll xs ys
  | .record x, .record y => Record.same x y
  | _, _ => false

/-- Pointwise equality of lists of nodes. -/
def Node.sameAll : List Node → List Node → Bool
  | [], [] => true
  | x :: xs, y :: ys => Node.same x y && Node.sameAll xs ys
  | _, _ => false

/-- Equality of records in everything but their identities. -/
def Record.same : Record → Record → Bool
  | ⟨_, component, part, variant, params, content, mixins, rendering⟩, other =>
    component == other.component && part == other.part && variant == other.variant &&
    Node.same content other.content && Node.sameAll mixins other.mixins &&
    OrderedMap.sameBy Literal.same params other.params && rendering.same other.rendering

end

end ComponentTree
