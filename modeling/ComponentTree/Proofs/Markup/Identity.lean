import ComponentTree.Markup
import ComponentTree.Proofs.Tree.Identity

/-!
Markup does not show identities.

The literal data of a tree has none (`toLiteral_mapKeys`), and mixins are shown as literal data, so
trees that differ in identities only have the same markup (`render_of_anonymous`).
-/

namespace ComponentTree

mutual

theorem Node.toLiteral_mapKeys (f : Key → Key) : ∀ n : Node, (n.mapKeys f).toLiteral = n.toLiteral
  | .absent | .bool _ | .number _ | .text _ => rfl
  | .list items => by
    rw [Node.mapKeys, Node.toLiteral, Node.toLiteral, Node.toLiterals_mapKeysAll f items]
  | .record r => by rw [Node.mapKeys, Node.toLiteral, Node.toLiteral, Record.members_mapKeys f r]

theorem Node.toLiterals_mapKeysAll (f : Key → Key) : ∀ ns : List Node,
    Node.toLiterals (Node.mapKeysAll f ns) = Node.toLiterals ns
  | [] => rfl
  | n :: ns => by
    rw [Node.mapKeysAll, Node.toLiterals, Node.toLiterals, Node.toLiteral_mapKeys f n,
      Node.toLiterals_mapKeysAll f ns]

theorem Record.members_mapKeys (f : Key → Key) : ∀ r : Record, (r.mapKeys f).members = r.members
  | ⟨key, component, part, variant, params, content, mixins, rendering⟩ => by
    have habsent : (content.mapKeys f).isAbsent = content.isAbsent := by cases content <;> rfl
    have hempty : (Node.mapKeysAll f mixins).isEmpty = mixins.isEmpty := by cases mixins <;> rfl
    rw [Record.mapKeys, Record.members, Record.members, habsent, hempty,
      Node.toLiteral_mapKeys f content, Node.toLiterals_mapKeysAll f mixins]

end

namespace Markup

theorem openingTag_mapKeys (f : Key → Key) (r : Record) :
    openingTag (r.mapKeys f) = openingTag r := by
  obtain ⟨key, component, part, variant, params, content, mixins, rendering⟩ := r
  have hempty : (Node.mapKeysAll f mixins).isEmpty = mixins.isEmpty := by cases mixins <;> rfl
  unfold openingTag classAttr classes payloadAttr payload
  rw [Record.mapKeys]
  dsimp only
  rw [hempty, Node.toLiterals_mapKeysAll]
  rfl

theorem renderRecord_eq (r : Record) : renderRecord r =
    if voidTags.contains (tagOf r) then openingTag r ++ "/>"
    else openingTag r ++ ">" ++ render r.content ++ "</" ++ tagOf r ++ ">" := by
  cases r
  rw [renderRecord]

mutual

theorem render_mapKeys (f : Key → Key) : ∀ n : Node, render (n.mapKeys f) = render n
  | .absent | .bool _ | .number _ | .text _ => rfl
  | .list items => by rw [Node.mapKeys, render, render, renderAll_mapKeysAll f items]
  | .record r => by rw [Node.mapKeys, render, render, renderRecord_mapKeys f r]

theorem renderAll_mapKeysAll (f : Key → Key) : ∀ ns : List Node,
    renderAll (Node.mapKeysAll f ns) = renderAll ns
  | [] => rfl
  | n :: ns => by
    rw [Node.mapKeysAll, renderAll, renderAll, render_mapKeys f n, renderAll_mapKeysAll f ns]

theorem renderRecord_mapKeys (f : Key → Key) : ∀ r : Record,
    renderRecord (r.mapKeys f) = renderRecord r
  | ⟨key, component, part, variant, params, content, mixins, rendering⟩ => by
    have hcontent := render_mapKeys f content
    rw [renderRecord_eq, renderRecord_eq, openingTag_mapKeys, Record.mapKeys]
    dsimp only
    rw [hcontent]
    rfl

end

/-- Trees that differ in identities only have the same markup. -/
theorem render_of_anonymous {a b : Node} (h : a.anonymous = b.anonymous) : render a = render b := by
  rw [← render_mapKeys (fun _ => 0) a, ← render_mapKeys (fun _ => 0) b]
  exact congrArg render h

end Markup

end ComponentTree
