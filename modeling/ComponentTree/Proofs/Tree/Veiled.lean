import ComponentTree.Proofs.Tree.Alter
import ComponentTree.Proofs.Tree.Identity
import ComponentTree.Proofs.Tree.Size

/-!
Trees without the identities in mixins.

Expansion does not go into mixins, and rules may put new records there, whose identities depend on
what was issued before. A veiled tree has lost those identities, at any depth of its content, and
kept all others. Main statements: the records in reach keep their identities (`reachedKeys_veiled`),
nothing else is lost than what an anonymous tree has lost (`anonymous_veiled`), and a tree can be
veiled before a node is put into it or after it (`veiled_put`).
-/

namespace ComponentTree

mutual

/-- The tree without the identities in the mixins of the records to which expansion can go. -/
def Node.veiled : Node → Node
  | .absent => .absent
  | .bool b => .bool b
  | .number x => .number x
  | .text s => .text s
  | .list items => .list (Node.veiledAll items)
  | .record r => .record (Record.veiled r)

/-- The nodes without the identities in mixins. -/
def Node.veiledAll : List Node → List Node
  | [] => []
  | n :: ns => Node.veiled n :: Node.veiledAll ns

/-- The record without the identities in mixins, its own and those in its content. -/
def Record.veiled : Record → Record
  | ⟨key, component, part, variant, params, content, mixins, rendering⟩ =>
    ⟨key, component, part, variant, params, Node.veiled content, mixins.map Node.anonymous,
      rendering⟩

end

namespace Node

theorem veiledAll_eq_map (ns : List Node) : veiledAll ns = ns.map veiled := by
  induction ns with
  | nil => rfl
  | cons n ns ih => rw [veiledAll, ih, List.map_cons]

theorem veiled_list (items : List Node) : (list items).veiled = list (items.map veiled) := by
  rw [veiled, veiledAll_eq_map]

theorem veiled_record (r : Record) : (record r).veiled =
    record { r with content := r.content.veiled, mixins := r.mixins.map anonymous } := by
  cases r
  rw [veiled, Record.veiled]

end Node

mutual

/-- An anonymous tree has lost the identities in mixins too. -/
theorem Node.anonymous_veiled : ∀ n : Node, n.veiled.anonymous = n.anonymous
  | .absent | .bool _ | .number _ | .text _ => rfl
  | .list items => by
    rw [Node.veiled, Node.anonymous, Node.anonymous, Node.mapKeys, Node.mapKeys,
      Node.anonymousAll_veiledAll items]
  | .record r => by
    rw [Node.veiled, Node.anonymous, Node.anonymous, Node.mapKeys, Node.mapKeys,
      Record.anonymous_veiled r]

theorem Node.anonymousAll_veiledAll : ∀ ns : List Node,
    Node.mapKeysAll (fun _ => 0) (Node.veiledAll ns) = Node.mapKeysAll (fun _ => 0) ns
  | [] => rfl
  | n :: ns => by
    rw [Node.veiledAll, Node.mapKeysAll, Node.mapKeysAll, Node.anonymousAll_veiledAll ns]
    exact congrArg (· :: _) (Node.anonymous_veiled n)

theorem Record.anonymous_veiled : ∀ r : Record,
    (Record.veiled r).mapKeys (fun _ => 0) = r.mapKeys fun _ => 0
  | ⟨key, component, part, variant, params, content, mixins, rendering⟩ => by
    have hcontent : (Node.veiled content).mapKeys (fun _ => 0) = content.mapKeys fun _ => 0 :=
      Node.anonymous_veiled content
    rw [Record.veiled, Record.mapKeys, Record.mapKeys, hcontent, Node.mapKeysAll_eq_map,
      Node.mapKeysAll_eq_map]
    exact congrArg (Record.mk 0 component part variant params _ · rendering)
      (Node.map_anonymous_anonymous mixins)

end

mutual

/-- The records in reach keep their identities. -/
theorem Node.reachedKeys_veiled : ∀ n : Node, n.veiled.reachedKeys = n.reachedKeys
  | .absent | .bool _ | .number _ | .text _ => rfl
  | .list items => by
    rw [Node.veiled, Node.reachedKeys, Node.reachedKeys, Node.reachedKeysAll_veiledAll items]
  | .record r => by
    rw [Node.veiled, Node.reachedKeys, Node.reachedKeys, Record.reachedKeys_veiled r]

theorem Node.reachedKeysAll_veiledAll : ∀ ns : List Node,
    Node.reachedKeysAll (Node.veiledAll ns) = Node.reachedKeysAll ns
  | [] => rfl
  | n :: ns => by
    rw [Node.veiledAll, Node.reachedKeysAll, Node.reachedKeysAll, Node.reachedKeys_veiled n,
      Node.reachedKeysAll_veiledAll ns]

theorem Record.reachedKeys_veiled : ∀ r : Record, (Record.veiled r).reachedKeys = r.reachedKeys
  | ⟨key, component, part, variant, params, content, mixins, rendering⟩ => by
    rw [Record.veiled, Record.reachedKeys, Record.reachedKeys, Node.reachedKeys_veiled content]

end

namespace Node

/-- A tree can be veiled before a node is put into it or after it. -/
theorem veiled_put (new t : Node) (p : Path) :
    (put new p t).veiled = put new.veiled p t.veiled := by
  induction p generalizing t with
  | nil => rw [put_nil, put_nil]
  | cons edge p ih =>
    cases edge <;> cases t <;> try rfl
    · rename_i i items
      rw [put, veiled_list, veiled_list, put]
      refine congrArg list (List.ext_getElem? fun j => ?_)
      rw [List.getElem?_map, List.getElem?_modify, List.getElem?_modify, List.getElem?_map]
      cases items[j]? with
      | none => split <;> rfl
      | some n => split <;> simp [ih]
    · rename_i r
      rw [put, veiled_record, veiled_record, put, ih]

/-- Trees that differ in the identities in mixins only are the same without any identities. -/
theorem anonymous_of_veiled {a b : Node} (h : a.veiled = b.veiled) : a.anonymous = b.anonymous := by
  rw [← a.anonymous_veiled, ← b.anonymous_veiled, h]

theorem reachedKeys_of_veiled {a b : Node} (h : a.veiled = b.veiled) :
    a.reachedKeys = b.reachedKeys := by
  rw [← a.reachedKeys_veiled, ← b.reachedKeys_veiled, h]

end Node

end ComponentTree
