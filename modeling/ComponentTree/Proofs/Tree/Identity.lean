import ComponentTree.Tree.Identity

/-!
Identities under the copying of trees.

Main statements: a snapshot is the tree itself, since passing every key through the identity
function changes nothing (`snapshot_eq`), and trees that are the same without their identities are
equal to the same nodes (`same_of_anonymous`).
-/

namespace ComponentTree

mutual

theorem Node.mapKeys_id : ∀ n : Node, n.mapKeys id = n
  | .absent | .bool _ | .number _ | .text _ => rfl
  | .list items => by rw [Node.mapKeys, Node.mapKeysAll_id items]
  | .record r => by rw [Node.mapKeys, Record.mapKeys_id r]

theorem Node.mapKeysAll_id : ∀ ns : List Node, Node.mapKeysAll id ns = ns
  | [] => rfl
  | n :: ns => by rw [Node.mapKeysAll, Node.mapKeys_id n, Node.mapKeysAll_id ns]

theorem Record.mapKeys_id : ∀ r : Record, r.mapKeys id = r
  | ⟨key, component, part, variant, params, content, mixins, rendering⟩ => by
    rw [Record.mapKeys, Node.mapKeys_id content, Node.mapKeysAll_id mixins, id]

end

mutual

theorem Node.mapKeys_mapKeys (f g : Key → Key) :
    ∀ n : Node, (n.mapKeys f).mapKeys g = n.mapKeys (g ∘ f)
  | .absent | .bool _ | .number _ | .text _ => rfl
  | .list items => by
    rw [Node.mapKeys, Node.mapKeys, Node.mapKeys, Node.mapKeysAll_mapKeysAll f g items]
  | .record r => by rw [Node.mapKeys, Node.mapKeys, Node.mapKeys, Record.mapKeys_mapKeys f g r]

theorem Node.mapKeysAll_mapKeysAll (f g : Key → Key) :
    ∀ ns : List Node, Node.mapKeysAll g (Node.mapKeysAll f ns) = Node.mapKeysAll (g ∘ f) ns
  | [] => rfl
  | n :: ns => by
    rw [Node.mapKeysAll, Node.mapKeysAll, Node.mapKeysAll, Node.mapKeys_mapKeys f g n,
      Node.mapKeysAll_mapKeysAll f g ns]

theorem Record.mapKeys_mapKeys (f g : Key → Key) :
    ∀ r : Record, (r.mapKeys f).mapKeys g = r.mapKeys (g ∘ f)
  | ⟨key, component, part, variant, params, content, mixins, rendering⟩ => by
    rw [Record.mapKeys, Record.mapKeys, Record.mapKeys, Node.mapKeys_mapKeys f g content,
      Node.mapKeysAll_mapKeysAll f g mixins, Function.comp_apply]

end

theorem Node.mapKeysAll_eq_map (f : Key → Key) (ns : List Node) :
    Node.mapKeysAll f ns = ns.map (Node.mapKeys f) := by
  induction ns with
  | nil => rfl
  | cons n ns ih => rw [Node.mapKeysAll, ih, List.map_cons]

/-- The tree without the identities of its records. -/
def Node.anonymous (n : Node) : Node := n.mapKeys fun _ => 0

theorem Node.anonymous_anonymous (n : Node) : n.anonymous.anonymous = n.anonymous :=
  n.mapKeys_mapKeys _ _

theorem Node.map_anonymous_anonymous (ns : List Node) :
    (ns.map Node.anonymous).map Node.anonymous = ns.map Node.anonymous := by
  rw [List.map_map]
  exact List.map_congr_left fun n _ => n.anonymous_anonymous

mutual

/-- Equality of nodes does not look at identities. -/
theorem Node.same_mapKeys (f : Key → Key) : ∀ n m : Node, (n.mapKeys f).same m = n.same m
  | .absent, _ | .bool _, _ | .number _, _ | .text _, _ => rfl
  | .list items, m => by
    rw [Node.mapKeys]
    cases m with
    | list others => exact Node.sameAll_mapKeysAll f items others
    | _ => rfl
  | .record r, m => by
    rw [Node.mapKeys]
    cases m with
    | record other => exact Record.same_mapKeys f r other
    | _ => rfl

theorem Node.sameAll_mapKeysAll (f : Key → Key) : ∀ ns ms : List Node,
    Node.sameAll (Node.mapKeysAll f ns) ms = Node.sameAll ns ms
  | [], _ => rfl
  | n :: ns, [] => rfl
  | n :: ns, m :: ms => by
    rw [Node.mapKeysAll, Node.sameAll, Node.sameAll, Node.same_mapKeys f n m,
      Node.sameAll_mapKeysAll f ns ms]

theorem Record.same_mapKeys (f : Key → Key) : ∀ r other : Record,
    (r.mapKeys f).same other = r.same other
  | ⟨key, component, part, variant, params, content, mixins, rendering⟩, other => by
    rw [Record.mapKeys, Record.same, Record.same, Node.same_mapKeys f content,
      Node.sameAll_mapKeysAll f mixins]

end

/-- Trees that differ in identities only are equal to the same nodes. -/
theorem Node.same_of_anonymous {a b : Node} (h : a.anonymous = b.anonymous) (n : Node) :
    a.same n = b.same n := by
  rw [← a.same_mapKeys (fun _ => 0) n, ← b.same_mapKeys (fun _ => 0) n]
  exact congrArg (·.same n) h

theorem Node.snapshot_eq (n : Node) : n.snapshot = n := n.mapKeys_id

theorem Record.snapshot_eq (r : Record) : r.snapshot = r := r.mapKeys_id

end ComponentTree
