import ComponentTree.Expansion.Pass
import ComponentTree.Markup

/-!
Expansion: running rules over a tree until none applies.

A rule runs at most once on each record identity in one expansion, however often the record comes
up. A rule may run the record's other rules ahead; that is a pass of its own over the record alone,
which shares the ledger with the pass around it. Every pass is given a number of steps, and all is
defined by recursion on that number.
-/

namespace ComponentTree

variable {σ α : Type}

/-- The context after a pass over its record alone. If the pass ended with a record of the same
identity, that is the record now; otherwise the tree at its end took the place of the record, which
is as the rules before the replacement left it. -/
def Context.settle (c : Context) (pass : Pass) : Context :=
  let replaced : Context :=
    { c with record := pass.formerRoot.getD c.record, replacedBy := some pass.tree }
  match pass.tree with
  | .record r =>
    if r.key = c.record.key then { c with record := r, replacedBy := none } else replaced
  | _ => replaced

/-- Runs the other rules of a context's record in a pass of their own. -/
def Context.runAhead (run : Pass → Run σ Pass) (c : Context) : Run σ Context := do
  let number ← Run.beginPass
  let pass ← run (.start number ⟨c.record.component, none⟩ true (.record c.record.snapshot))
  return c.settle pass

/-- Executes a program on a context; `run` executes the passes that it asks for. -/
def RuleM.exec (idPrefix : String) (run : Pass → Run σ Pass) :
    RuleM σ α → Context → Run σ (α × Context)
  | .done a, c => return (a, c)
  | .fail e, _ => throw (.failed e)
  | .look next, c => (next c).exec idPrefix run c
  | .write w next, c => next.exec idPrefix run (c.write w)
  | .generateId next, c => do
    let id ← Run.freshId idPrefix
    (next id).exec idPrefix run c
  | .issue tree next, c => do
    let tree ← Run.fresh tree
    (next tree).exec idPrefix run c
  | .runAhead next, c => do
    match ← Run.attempt (c.runAhead run) with
    | .ok c => (next (.ok ())).exec idPrefix run c
    | .error e => (next (.error e)).exec idPrefix run c
  | .recall next, c => do
    let w ← get
    (next w.memory).exec idPrefix run c
  | .remember memory next, c => do
    modify fun w => { w with memory }
    next.exec idPrefix run c

namespace Engine

/-- A rule's answer as a replacement: an absent tree replaces nothing. -/
def replacement? : Option Node → Option Node
  | some tree => if tree.isAbsent then none else some tree
  | none => none

/-- Runs the body of a rule on a record, and gives its answer and the context it leaves. -/
def runBody (e : Engine σ) (run : Pass → Run σ Pass) (body : RuleM σ (Option Node))
    (position : Position) (record : Record) : Run σ (Option Node × Context) :=
  body.exec e.options.idPrefix run { record, position, library := e.library }

/-- Runs rules on a record one after the other, until one replaces or stops it. Rules that ran on
its identity before are skipped. -/
def runRules (e : Engine σ) (run : Pass → Run σ Pass) (pass : Nat) (site : Site) (key : Key) :
    List RuleId → Record → Run σ Verdict
  | [], record => return .kept record
  | rule :: rest, record => do
    if ← Run.mark key rule then
      match e.rulebook.body? rule with
      | none => e.runRules run pass site key rest record
      | some body => do
        Run.log (.started pass site.path key rule site.position)
        let (answer, c) ← e.runBody run body site.position record
        match replacement? answer with
        | some tree => do
          Run.log (.replaced pass site.path key rule)
          return .replaced c.record tree
        | none =>
          if c.record.rendering.stopped then return .kept c.record
          else e.runRules run pass site key rest c.record
    else e.runRules run pass site key rest record

/-- Runs the rules that a record is matched by. -/
def applyRules (e : Engine σ) (run : Pass → Run σ Pass) (pass : Nat) (site : Site)
    (record : Record) (component : String) (variant : Option String) : Run σ Verdict :=
  match e.rulebook.resolve component variant record.part with
  | none => return .kept record
  | some (_, rules) => e.runRules run pass site record.key rules record

/-- Looks at a record: settles its owner and, if it has a component, runs its rules. -/
def visit (e : Engine σ) (run : Pass → Run σ Pass) (pass : Pass) (site : Site)
    (record : Record) : Run σ Pass :=
  let (record, owner) := e.resolveOwner record site.owner
  match record.component with
  | none => return pass.keep site record owner
  | some component => do
    let site := site.count
    Run.log (.visited pass.number site.path record.key component owner.variant record.part)
    if e.options.refuses site.rounds then
      throw (.failed (.divergence (Selector.label component record.part)
        e.options.divergenceLimit))
    else if record.rendering.stopped then return pass.keep site record owner
    else
      match ← e.applyRules run pass.number site record component owner.variant with
      | .kept record => return pass.keep site record owner
      | .replaced record tree => return pass.replace site record tree owner

/-- Looks at a site that has been taken off the queue. -/
def step (e : Engine σ) (run : Pass → Run σ Pass) (pass : Pass) (site : Site) : Run σ Pass :=
  match pass.tree.at? site.path with
  | some (.list items) => return pass.enqueue (Site.ofItems site.path site.owner items)
  | some (.record record) => e.visit run pass site record
  | _ => return pass

/-- Runs a pass until its queue is empty. -/
def runPass (e : Engine σ) : Nat → Pass → Run σ Pass
  | 0, _ => throw .exhausted
  | fuel + 1, pass =>
    match pass.queue with
    | [] => return pass
    | site :: queue => do
      let pass ← e.step (e.runPass fuel) { pass with queue } site
      e.runPass fuel pass

/-- Expands a tree in a given world. -/
def expandIn (e : Engine σ) (fuel : Nat) (root : Node) : Run σ Node := do
  let number ← Run.beginPass
  let pass ← e.runPass fuel (.start number {} false root)
  return pass.tree

end Engine

/-- The outcome of an expansion: its answer, the engine with its counter moved on, and what else is
left at the end. -/
structure Expansion (σ : Type) where
  answer : Except Stop Node
  engine : Engine σ
  nextKey : Key
  memory : σ
  ledger : Ledger

/-- Expands a tree until no rule changes it, in at most `fuel` steps of each pass. -/
def Engine.expand (e : Engine σ) (fuel : Nat) (nextKey : Key) (memory : σ) (root : Node) :
    Expansion σ :=
  let (answer, w) := (e.expandIn fuel root).run { nextKey, nextId := e.nextId, memory }
  ⟨answer, { e with nextId := w.nextId }, w.nextKey, w.memory, w.ledger⟩

/-- The markup of the expanded tree. -/
def Expansion.markup (x : Expansion σ) : Except Stop String := x.answer.map Markup.render

end ComponentTree
