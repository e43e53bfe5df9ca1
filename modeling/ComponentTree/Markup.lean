import ComponentTree.Tree.Literal
import ComponentTree.Markup.Escape

/-!
Expanded trees as markup.

A record is an element: its class names the component, variant and part and then the states that
are set; then come the component's name as data, the attributes in the order in which they were set,
and the payload for the client. Text is written as it is, and attribute texts are escaped.
-/

namespace ComponentTree.Markup

/-- The tag of a record to which no rule gave one. -/
def defaultTag : String := "div"

/-- The class that marks records to be initialized on the client. -/
def initClass : String := "_init"

/-- The tags of elements that are written without content. -/
def voidTags : List String :=
  ["area", "base", "br", "col", "command", "embed", "hr", "img", "input", "keygen", "link",
    "meta", "param", "source", "wbr"]

/-- `component[_variant][__part]`, for a record that has a component. -/
def baseClass (r : Record) : List String :=
  match r.component with
  | none => []
  | some component =>
    let variant := match r.variant with
      | some v => "_" ++ v
      | none => ""
    let part := match r.part with
      | some p => "__" ++ p
      | none => ""
    [component ++ variant ++ part]

/-- The class of a state that is set: its name, and its value if that is a text. -/
def stateClass (entry : String × StateValue) : List String :=
  if entry.2.isSet then
    match entry.2 with
    | .text s => ["_" ++ entry.1 ++ "_" ++ s]
    | _ => ["_" ++ entry.1]
  else []

/-- The classes of a record, in the order in which they are written. -/
def classes (r : Record) : List String :=
  baseClass r ++ r.rendering.state.entries.flatMap stateClass ++
  (if r.rendering.autoInit = some true || !r.mixins.isEmpty then [initClass] else [])

/-- The data for the client: the init options if they were set, and the mixins if there are any. -/
def payload (r : Record) : Option Literal :=
  if r.rendering.initOptions.isNone && r.mixins.isEmpty then none
  else
    some (.object (
      (match r.rendering.initOptions with
        | some options => [("options", .object options.entries)]
        | none => []) ++
      (if r.mixins.isEmpty then [] else [("mixins", .array (Node.toLiterals r.mixins))])))

/-- An attribute with a value, which stands between double quotes as it is. -/
def quotedAttr (name value : String) : String := " " ++ name ++ "=\"" ++ value ++ "\""

/-- The class attribute, unless it is turned off or empty. -/
def classAttr (r : Record) : String :=
  let value := String.intercalate " " (classes r)
  if r.rendering.classDisabled || value = "" then "" else quotedAttr "class" value

/-- The component's name as data, unless it is turned off; parts have none. -/
def dataAttr (r : Record) : String :=
  match r.component with
  | some component =>
    if r.rendering.dataDisabled || r.part.isSome then "" else quotedAttr "data-block" component
  | none => ""

/-- An attribute that a rule set. -/
def ownAttr (entry : String × Attr) : String :=
  match entry.2 with
  | .flag => " " ++ entry.1
  | .text s => quotedAttr entry.1 (Escape.attrValue s)
  | .null => ""

/-- The payload for the client as an attribute. -/
def payloadAttr (r : Record) : String :=
  match payload r with
  | some v => quotedAttr "data-options" (Escape.attrValue (Literal.print v))
  | none => ""

/-- The tag of a record. -/
def tagOf (r : Record) : String := r.rendering.tag.getD defaultTag

/-- The opening tag up to its closing angle. -/
def openingTag (r : Record) : String :=
  "<" ++ tagOf r ++ classAttr r ++ dataAttr r ++
    String.join (r.rendering.attrs.entries.map ownAttr) ++ payloadAttr r

mutual

/-- The markup of a tree. -/
def render : Node → String
  | .absent => ""
  | .bool b => if b then "true" else ""
  | .number x => x.display
  | .text s => s
  | .list items => renderAll items
  | .record r => renderRecord r

/-- The markup of the nodes, one after the other. -/
def renderAll : List Node → String
  | [] => ""
  | n :: ns => render n ++ renderAll ns

/-- The markup of a record. -/
def renderRecord : Record → String
  | ⟨key, component, part, variant, params, content, mixins, rendering⟩ =>
    let r : Record := ⟨key, component, part, variant, params, content, mixins, rendering⟩
    if voidTags.contains (tagOf r) then openingTag r ++ "/>"
    else openingTag r ++ ">" ++ render content ++ "</" ++ tagOf r ++ ">"

end

end ComponentTree.Markup
