import ComponentTree.Tree

/-!
Identities of records.

A traversal changes the key of every record of a tree; a snapshot is the traversal that changes
none, and reissuing gives every record a key that was never given before, in the order record,
content, mixins.
-/

namespace ComponentTree

mutual

/-- The keys of all records of a tree: a record before its content, content before mixins. -/
def Node.keys : Node → List Key
  | .list items => Node.keysAll items
  | .record r => Record.keys r
  | _ => []

/-- The keys of all records of a list of nodes. -/
def Node.keysAll : List Node → List Key
  | [] => []
  | n :: ns => Node.keys n ++ Node.keysAll ns

/-- The keys of a record and of all records inside it. -/
def Record.keys : Record → List Key
  | { key, content, mixins, .. } => key :: (Node.keys content ++ Node.keysAll mixins)

end

mutual

/-- The tree with every key passed through `f`. -/
def Node.mapKeys (f : Key → Key) : Node → Node
  | .absent => .absent
  | .bool b => .bool b
  | .number x => .number x
  | .text s => .text s
  | .list items => .list (Node.mapKeysAll f items)
  | .record r => .record (Record.mapKeys f r)

/-- A list of nodes with every key passed through `f`. -/
def Node.mapKeysAll (f : Key → Key) : List Node → List Node
  | [] => []
  | n :: ns => Node.mapKeys f n :: Node.mapKeysAll f ns

/-- The record with its key and every key inside it passed through `f`. -/
def Record.mapKeys (f : Key → Key) : Record → Record
  | ⟨key, component, part, variant, params, content, mixins, rendering⟩ =>
    ⟨f key, component, part, variant, params, Node.mapKeys f content, Node.mapKeysAll f mixins,
      rendering⟩

end

/-- A copy of the tree in which every record keeps its identity. -/
def Node.snapshot (n : Node) : Node := n.mapKeys id

/-- A copy of the record in which every record keeps its identity. -/
def Record.snapshot (r : Record) : Record := r.mapKeys id

mutual

/-- A copy of the tree with new identities from `next` on, and the first key still unused. -/
def Node.reissue (next : Key) : Node → Node × Key
  | .absent => (.absent, next)
  | .bool b => (.bool b, next)
  | .number x => (.number x, next)
  | .text s => (.text s, next)
  | .list items =>
    let (items, next) := Node.reissueAll next items
    (.list items, next)
  | .record r =>
    let (r, next) := Record.reissue next r
    (.record r, next)

/-- Copies of the nodes with new identities from `next` on, and the first key still unused. -/
def Node.reissueAll (next : Key) : List Node → List Node × Key
  | [] => ([], next)
  | n :: ns =>
    let (n, next) := Node.reissue next n
    let (ns, next) := Node.reissueAll next ns
    (n :: ns, next)

/-- A copy of the record with new identities from `next` on, and the first key still unused. The
record itself gets the first of them. A copy made field by field, with the identity at the end,
would give it the last one; the two differ in the numbers only. -/
def Record.reissue (next : Key) : Record → Record × Key
  | ⟨_, component, part, variant, params, content, mixins, rendering⟩ =>
    let (content, after) := Node.reissue (next + 1) content
    let (mixins, after) := Node.reissueAll after mixins
    (⟨next, component, part, variant, params, content, mixins, rendering⟩, after)

end

end ComponentTree
