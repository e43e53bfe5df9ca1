import ComponentTree.Script

/-!
What scripts mean.

Expressions and actions are programs of rules; a script runs its actions in order until one gives
an answer, and keeps the record if none does.
-/

namespace ComponentTree.Script

/-- A literal as a condition: `null` and `false` do not hold. -/
def holds : Literal → Bool
  | .null | .bool false => false
  | _ => true

/-- The integer in a literal, zero if there is none. -/
def integerOf (v : Literal) : Int := v.signed?.getD 0

/-- The literal of a value that may be missing. -/
def literalOr (v : Option Literal) : Literal := v.getD .null

/-- The answer to a query. -/
def Query.answer (c : Context) : Query → Literal
  | .position => .ofInt c.position.ordinal
  | .isFirst => .bool c.position.isFirst
  | .isLast => .bool c.position.isLast
  | .tag => .ofText? c.record.rendering.tag
  | .component => .ofText? c.record.component
  | .variant => .ofText? c.record.variant
  | .part => .ofText? c.record.part
  | .classes => .bool !c.record.rendering.classDisabled
  | .data => .bool !c.record.rendering.dataDisabled
  | .autoInit => .bool c.autoInit
  | .mixinCount => .ofInt c.record.mixins.length
  | .contentText => .ofText? c.record.content.scalarText
  | .language => .ofText? (c.library.strings?.map (·.language))
  | .attr name =>
    match c.record.rendering.attrs.get? name with
    | some v => v.toLiteral
    | none => .string "unset"
  | .state name =>
    match c.record.rendering.state.get? name with
    | some v => v.toLiteral
    | none => .string "unset"
  | .param name => literalOr (c.param? name)
  | .paramText name => .ofText? ((c.param? name).bind Json.string?)
  | .initOption name => literalOr (c.initOption? name)
  | .library name => .ofText? (c.library.text? name)

/-- A program of a script. -/
abbrev Program (α : Type) := RuleM Memory α

/-- A string from the keysets of the library. -/
def lookupString (keyset : String) (key options : Program Literal) : Program Literal := do
  let c ← RuleM.context
  match c.library.strings? with
  | none => .fail (.rule "lookup" "keysets are not registered")
  | some strings => do
    let key ← key
    let options ← options
    match strings.lookupWith keyset key.bareText options with
    | .ok s => return .string s
    | .error e => .fail (.missing e)

/-- A text for use as content: a string as it is, any other value as JSON text. -/
def escapedText : Literal → String
  | .string s => Escape.text s
  | v => Escape.text v.print

mutual

/-- The value of an expression. -/
def ValueExpr.eval : ValueExpr → Program Literal
  | .lit v => return v
  | .concat parts => do
    let values ← ValueExpr.evalAll parts
    return .string (String.join (values.map Literal.bareText))
  | .add x n => do
    let x ← x.eval
    return .ofInt (integerOf x + n)
  | .eq x y => do
    let x ← x.eval
    let y ← y.eval
    return .bool (Literal.same x y)
  | .lt x y => do
    let x ← x.eval
    let y ← y.eval
    return .bool (integerOf x < integerOf y)
  | .not x => do
    let x ← x.eval
    return .bool !holds x
  | .escape x => do
    let x ← x.eval
    return .string (escapedText x)
  | .ask query => do
    let c ← RuleM.context
    return query.answer c
  | .freshId => do
    let id ← RuleM.freshId
    return .string id
  | .lookup keyset key options => lookupString keyset key.eval options.eval

/-- The values of expressions, from left to right. -/
def ValueExpr.evalAll : List ValueExpr → Program (List Literal)
  | [] => return []
  | x :: xs => do
    let v ← x.eval
    let vs ← ValueExpr.evalAll xs
    return v :: vs

end

/-- The values of named expressions, from left to right. -/
def evalEntries : List (String × ValueExpr) → Program (List (String × Literal))
  | [] => return []
  | (name, x) :: rest => do
    let v ← x.eval
    let vs ← evalEntries rest
    return (name, v) :: vs

/-- A new plain record. -/
def freshRecord : Program Record := do
  let tree ← RuleM.fresh (.record .blank)
  return tree.record?.getD .blank

/-- A new record with the given fields. -/
def Fields.eval (f : Fields) : Program Record := do
  let r ← freshRecord
  let component ← f.component.eval
  let part ← f.part.eval
  let variant ← f.variant.eval
  let params ← evalEntries f.params
  let tag ← f.tag.eval
  let attrs ← evalEntries f.attrs
  let state ← evalEntries f.state
  let initOptions ← match f.initOptions with
    | some entries => some <$> evalEntries entries
    | none => pure none
  let rendering : Rendering :=
    { tag := tag.string?
      attrs := .ofList (attrs.map fun e => (e.1, Attr.ofLiteral e.2))
      classDisabled := f.flags.classDisabled
      dataDisabled := f.flags.dataDisabled
      stopped := f.flags.stopped
      autoInit := f.flags.autoInit
      state := .ofList (state.map fun e => (e.1, StateValue.ofLiteral e.2))
      initOptions := initOptions.map .ofList }
  return { r with
    component := component.string?
    part := part.string?
    variant := variant.string?
    params := .ofList params
    rendering }

/-- The tree in one wrapper. -/
def Wrapper.wrap (tree : Node) : Wrapper → Program Node
  | .list => return .list [tree]
  | .element => do
    let r ← freshRecord
    return .record { r with content := tree }
  | .part name => do
    let r ← freshRecord
    return .record { r with part := some name, content := .list [tree] }
  | .component name => do
    let r ← freshRecord
    return .record { r with component := some name, content := tree }

/-- The tree in a number of wrappers. -/
def Wrapper.wrapTimes (w : Wrapper) : Nat → Node → Program Node
  | 0, tree => return tree
  | n + 1, tree => do
    let tree ← w.wrap tree
    w.wrapTimes n tree

/-- A saved tree, absent if there is none. -/
def useSaved (name : String) (use : Use) : Program Node := do
  let memory ← RuleM.memory
  let tree := (memory.saved.get? name).getD .absent
  match use with
  | .take => do
    RuleM.modifyMemory fun m => { m with saved := m.saved.erase name }
    return tree
  | .snapshot => return tree.snapshot
  | .clone => RuleM.fresh tree

/-- The answers of a program that is run a number of times. -/
def times (program : Program Node) : Nat → Program (List Node)
  | 0 => return []
  | n + 1 => do
    let tree ← program
    let trees ← times program n
    return tree :: trees

mutual

/-- The tree of an expression. -/
def NodeExpr.eval : NodeExpr → Program Node
  | .lit v => RuleM.fresh (.ofLiteral v)
  | .value x => do
    let v ← x.eval
    RuleM.fresh (.ofLiteral v)
  | .text x => do
    let v ← x.eval
    return .text v.bareText
  | .bool b => return .bool b
  | .number x => return .number x
  | .component name => do
    let r ← freshRecord
    return .record { r with component := some name }
  | .part name => do
    let r ← freshRecord
    return .record { r with part := some name }
  | .element => do
    let r ← freshRecord
    return .record r
  | .record fields inside layered => do
    let r ← fields.eval
    let inside ← inside.eval
    let layered ← NodeExpr.evalAll layered
    return .record { r with content := inside, mixins := layered }
  | .clone x => do
    let tree ← x.eval
    RuleM.fresh tree
  | .list items => do
    let trees ← NodeExpr.evalAll items
    return .list trees
  | .flatten items => do
    let trees ← NodeExpr.evalAll items
    return .list (Node.flatten trees)
  | .repeated n x => do
    let trees ← times x.eval n
    return .list trees
  | .nest n wrapper x => do
    let tree ← x.eval
    wrapper.wrapTimes n tree
  | .saved name use => useSaved name use
  | .whole => do
    let c ← RuleM.context
    return c.tree
  | .content => do
    let c ← RuleM.context
    RuleM.fresh c.record.content
  | .contentSnapshot => do
    let c ← RuleM.context
    return c.record.content.snapshot
  | .takeContent => RuleM.takeContent
  | .mixins => do
    let c ← RuleM.context
    RuleM.fresh (.list c.record.mixins)
  | .param name => do
    let c ← RuleM.context
    RuleM.fresh (c.paramTree name)

/-- The trees of expressions, from left to right. -/
def NodeExpr.evalAll : List NodeExpr → Program (List Node)
  | [] => return []
  | x :: xs => do
    let tree ← x.eval
    let trees ← NodeExpr.evalAll xs
    return tree :: trees

end

/-- What a script sees of its record. -/
def Probe.ofContext (c : Context) : Probe where
  position := c.position.ordinal
  isFirst := c.position.isFirst
  isLast := c.position.isLast
  tag := c.record.rendering.tag
  component := c.record.component
  variant := c.record.variant
  part := c.record.part
  classes := !c.record.rendering.classDisabled
  data := !c.record.rendering.dataDisabled
  autoInit := c.autoInit
  content := c.record.content
  mixinCount := c.record.mixins.length
  tree := c.tree

/-- Appends an entry to the log. -/
def appendLog (entry : LogEntry) : Program Unit :=
  RuleM.modifyMemory fun m => { m with log := m.log ++ [entry] }

/-- An action that gives no answer. -/
def andGoOn (program : Program Unit) : Program (Option (Option Node)) := do
  program
  return none

mutual

/-- What an action does, and the answer that it gives, if any. -/
def Action.run : Action → Program (Option (Option Node))
  | .setTag x => andGoOn do
    let v ← x.eval
    RuleM.change (.tag v.bareText)
  | .setAttr name x => andGoOn do
    let v ← x.eval
    RuleM.change (.attr name (.ofLiteral v))
  | .setAttrPosition name => andGoOn do
    let c ← RuleM.context
    RuleM.change (.attr name (.text (toString c.position.ordinal)))
  | .setClasses on => andGoOn (RuleM.change (.classes on))
  | .setData on => andGoOn (RuleM.change (.data on))
  | .setState name => andGoOn (RuleM.change (.state name (.bool true)))
  | .setStateValue name x => andGoOn do
    let v ← x.eval
    RuleM.change (.state name (.ofLiteral v))
  | .setContent x => andGoOn do
    let tree ← x.eval
    RuleM.change (.content tree)
  | .addMixin x => andGoOn do
    let tree ← x.eval
    RuleM.change (.mixin tree)
  | .enableAutoInit => andGoOn (RuleM.change .autoInit)
  | .setInitOption name x => andGoOn do
    let v ← x.eval
    RuleM.change (.initOption name v)
  | .stop => andGoOn (RuleM.change .stop)
  | .runAhead => andGoOn RuleM.ahead
  | .save name x => andGoOn do
    let tree ← x.eval
    RuleM.modifyMemory fun m => { m with saved := m.saved.insert name tree }
  | .log x => andGoOn do
    let v ← x.eval
    appendLog (.value v)
  | .probe => andGoOn do
    let c ← RuleM.context
    appendLog (.probe (.ofContext c))
  | .branch condition yes no => do
    let v ← condition.eval
    if holds v then Action.runAll yes else Action.runAll no
  | .answer x => do
    let tree ← x.eval
    return some (some tree)
  | .keep => return some none
  | .fail selector message => do
    let v ← message.eval
    .fail (.rule selector v.bareText)

/-- Runs actions in order until one gives an answer. -/
def Action.runAll : List Action → Program (Option (Option Node))
  | [] => return none
  | a :: rest => do
    match ← a.run with
    | some result => return some result
    | none => Action.runAll rest

end

/-- The rule that a list of actions makes up. -/
def body (actions : List Action) : Program (Option Node) := do
  let result ← Action.runAll actions
  return result.join

/-- The tree of an expression outside of any rule, with the first identity still unused and the
memory after it. -/
def NodeExpr.standalone (x : NodeExpr) (nextKey : Key) (memory : Memory) : Node × Key × Memory :=
  let context : Context := { record := .blank, position := .alone, library := {} }
  let (answer, w) :=
    (x.eval.exec "" (fun pass => pure pass) context).run { nextKey, memory }
  match answer with
  | .ok (tree, _) => (tree, w.nextKey, w.memory)
  | .error _ => (.absent, w.nextKey, w.memory)

/-- Changes the root record of a saved tree; nothing happens if it is no record. Answers whether it
is one. -/
def Memory.edit (m : Memory) (name : String) (f : Record → Record) : Memory × Bool :=
  match m.saved.get? name with
  | some (.record r) => ({ m with saved := m.saved.insert name (.record (f r)) }, true)
  | _ => (m, false)

end ComponentTree.Script
