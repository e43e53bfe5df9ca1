import ComponentTree.Expansion.World

/-!
A pass over a tree.

A pass keeps a tree and a queue of sites, the places in it that are still to be looked at. Looking
at a list queues its items; looking at a record runs its rules. A record that a rule replaced goes
back to the end of the queue with the replacement in its place; any other record gets its content
flattened and its children queued. A pass for one record alone leaves the content as it is.
-/

namespace ComponentTree

namespace Node

/-- The node at the end of a path. -/
def at? : Path → Node → Option Node
  | [], node => some node
  | .item i :: path, .list items => items[i]?.bind (at? path)
  | .content :: path, .record r => at? path r.content
  | _ :: _, _ => none

/-- The tree with another node at the end of a path; a path that leads nowhere changes nothing. -/
def put (new : Node) : Path → Node → Node
  | [], _ => new
  | .item i :: path, .list items => .list (items.modify i (put new path))
  | .content :: path, .record r => .record { r with content := put new path r.content }
  | _ :: _, node => node

end Node

/-- A place that is still to be looked at. -/
structure Site where
  path : Path
  position : Position
  /-- What is handed down to this place. -/
  owner : Owner
  /-- How often the rules went through this place. -/
  rounds : Nat := 0
deriving DecidableEq

namespace Site

/-- The rounds are counted up to here. -/
def maxRounds : Nat := 4294967295

/-- The place with one more round counted. -/
def count (site : Site) : Site := { site with rounds := min (site.rounds + 1) maxRounds }

/-- The items of a list at `base` into which expansion goes. -/
def ofItems (base : Path) (owner : Owner) (items : List Node) : List Site :=
  items.zipIdx.filterMap fun (node, i) =>
    if node.isInner then some ⟨base ++ [.item i], .listed i items.length, owner, 0⟩ else none

/-- The places inside the content of a record at `base` into which expansion goes. -/
def ofContent (base : Path) (owner : Owner) : Node → List Site
  | .list items => ofItems (base ++ [.content]) owner items
  | node => if node.isInner then [⟨base ++ [.content], .alone, owner, 0⟩] else []

end Site

/-- The state of a pass. -/
structure Pass where
  /-- The number of the pass in its expansion. -/
  number : Nat
  tree : Node
  queue : List Site
  /-- The identity of the record that the pass began with. -/
  rootKey : Option Key
  /-- Whether the content of records is left alone. -/
  rootOnly : Bool
  /-- The root as it was when a rule first replaced it. -/
  formerRoot : Option Record := none

/-- What the rules made of a record. -/
inductive Verdict where
  | kept (record : Record)
  /-- The record as the replacing rule left it, and what is to take its place. -/
  | replaced (record : Record) (replacement : Node)

namespace Pass

/-- A pass over a tree, to which `owner` is handed down. -/
def start (number : Nat) (owner : Owner) (rootOnly : Bool) (root : Node) : Pass where
  number
  tree := root
  queue := [⟨[], .listed 0 1, owner, 0⟩]
  rootKey := root.record?.map (·.key)
  rootOnly

/-- The pass with another node at a place. -/
def put (pass : Pass) (path : Path) (node : Node) : Pass :=
  { pass with tree := Node.put node path pass.tree }

/-- The pass with more sites at the end of its queue. -/
def enqueue (pass : Pass) (sites : List Site) : Pass :=
  { pass with queue := pass.queue ++ sites }

/-- The pass after a record was kept: its content is flattened and its children are queued, unless
content is left alone. -/
def keep (pass : Pass) (site : Site) (record : Record) (owner : Owner) : Pass :=
  if pass.rootOnly then pass.put site.path (.record record)
  else
    let content := record.content.flattenContent
    (pass.put site.path (.record { record with content })).enqueue
      (Site.ofContent site.path owner content)

/-- The pass after a record was replaced: its site goes to the end of the queue. -/
def replace (pass : Pass) (site : Site) (record : Record) (replacement : Node) (owner : Owner) :
    Pass :=
  let formerRoot :=
    if pass.formerRoot.isNone && some record.key = pass.rootKey then some record
    else pass.formerRoot
  ({ pass with formerRoot }.put site.path replacement).enqueue [{ site with owner }]

end Pass

end ComponentTree
