import ComponentTree.Tree.Identity
import ComponentTree.Tree.Literal
import ComponentTree.Library
import ComponentTree.Markup.Escape

/-!
What a rule sees of the record it runs on.

A context holds the record, its position in the parent, and the tree that took its place if the
other rules were run ahead and replaced it. Rules read all of it and change it only through `Write`,
which covers the rendering, the content and the mixins of the record and nothing of its literal
data.
-/

namespace ComponentTree

/-- Where a node sits in its parent. -/
inductive Position where
  /-- One of the items of a list of `count` items. -/
  | listed (index count : Nat)
  /-- The whole content of a record, and no list. -/
  | alone
deriving DecidableEq, Repr

namespace Position

/-- The position counted from one. -/
def ordinal : Position → Nat
  | .listed index _ => index + 1
  | .alone => 1

/-- Whether nothing stands in front. -/
def isFirst : Position → Bool
  | .listed index _ => index == 0
  | .alone => true

/-- Whether nothing follows. -/
def isLast : Position → Bool
  | .listed index count => index + 1 == count
  | .alone => true

end Position

/-- What a rule has at hand. -/
structure Context where
  record : Record
  position : Position
  /-- The tree that replaced the record when its other rules were last run ahead. -/
  replacedBy : Option Node := none
  library : Library

/-- A change that a rule makes to its record. -/
inductive Write where
  | tag (tag : String)
  | attr (name : String) (value : Attr)
  /-- Whether a class is written. -/
  | classes (on : Bool)
  /-- Whether the component's name is written as data. -/
  | data (on : Bool)
  | state (name : String) (value : StateValue)
  | content (tree : Node)
  /-- One more mixin. -/
  | mixin (tree : Node)
  /-- Initialization on the client, unless it was turned off. -/
  | autoInit
  | initOption (name : String) (value : Literal)
  /-- No further rules. -/
  | stop

/-- The rendering after a change; content and mixins are no part of it. -/
def Rendering.write (r : Rendering) : Write → Rendering
  | .tag tag => { r with tag := some tag }
  | .attr name value => { r with attrs := r.attrs.insert name value }
  | .classes on => { r with classDisabled := !on }
  | .data on => { r with dataDisabled := !on }
  | .state name value => { r with state := r.state.insert name value }
  | .content _ | .mixin _ => r
  | .autoInit => if r.autoInit = some false then r else { r with autoInit := some true }
  | .initOption name value =>
    { r with initOptions := some ((r.initOptions.getD .empty).insert name value) }
  | .stop => { r with stopped := true }

/-- The record after a change. -/
def Record.write (r : Record) (w : Write) : Record :=
  match w with
  | .content tree => { r with content := tree }
  | .mixin tree => { r with mixins := r.mixins ++ [tree] }
  | w => { r with rendering := r.rendering.write w }

namespace Context

/-- The context after a change to the record. -/
def write (c : Context) (w : Write) : Context := { c with record := c.record.write w }

/-- The record as a tree, or the tree that replaced it. Identities are kept, so rules that ran on
the record do not run on it again. -/
def tree (c : Context) : Node :=
  match c.replacedBy with
  | some t => t.snapshot
  | none => .record c.record.snapshot

/-- A literal member of the record. -/
def param? (c : Context) (name : String) : Option Literal := c.record.params.get? name

/-- A literal member of the record read as a tree without identities, absent if it is missing. -/
def paramTree (c : Context) (name : String) : Node :=
  match c.param? name with
  | some v => .ofLiteral v
  | none => .absent

/-- An init option set so far. -/
def initOption? (c : Context) (name : String) : Option Literal :=
  c.record.rendering.initOptions.bind (·.get? name)

/-- Whether the record is marked for initialization on the client. -/
def autoInit (c : Context) : Bool := c.record.rendering.autoInit.getD false

end Context

end ComponentTree
