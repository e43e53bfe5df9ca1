import ComponentTree.Proofs.Markup.Identity
import ComponentTree.Proofs.Tree.Flat
import ComponentTree.Proofs.Tree.Path

/-!
Markup does not show nesting of lists.

Items are written one after the other, so a list is written like the flattened list
(`render_flatten`). Main statement: a tree is written the same when any node in it is exchanged for
one that is written the same (`render_put`).
-/

namespace ComponentTree.Markup

open Node

theorem renderAll_append (xs ys : List Node) :
    renderAll (xs ++ ys) = renderAll xs ++ renderAll ys := by
  induction xs with
  | nil => rw [List.nil_append, renderAll, String.empty_append]
  | cons x xs ih => rw [List.cons_append, renderAll, renderAll, ih, String.append_assoc]

/-! ### Flattened lists -/

theorem renderAll_leaves (items : List Node) : renderAll (leaves items) = renderAll items := by
  induction items using leaves.induct with
  | case1 => rw [leaves]
  | case2 inner rest ih₁ ih₂ => rw [leaves, renderAll_append, renderAll, render, ih₁, ih₂]
  | case3 n rest hn ih =>
    rw [leaves, renderAll, renderAll, ih]
    exact hn

/-- A list is written like the flattened list. -/
theorem render_flatten (items : List Node) :
    render (.list (flatten items)) = render (.list items) := by
  rw [render, render, flatten_eq_leaves, renderAll_leaves]

theorem render_flattenContent (n : Node) : render n.flattenContent = render n := by
  cases n with
  | list items => exact render_flatten items
  | _ => rfl

/-! ### Exchanged nodes -/

/-- A record is written the same when its content is exchanged for one that is. -/
theorem render_record_content {r : Record} {content : Node}
    (h : render content = render r.content) :
    render (.record { r with content }) = render (.record r) := by
  have htag : openingTag { r with content } = openingTag r := rfl
  rw [render, render, renderRecord_eq, renderRecord_eq, htag, h]
  rfl

/-- Items are written the same when one of them is changed into one that is. -/
theorem renderAll_modify {f : Node → Node} : ∀ {items : List Node} {i : Nat},
    (∀ item, items[i]? = some item → render (f item) = render item) →
      renderAll (items.modify i f) = renderAll items
  | [], _, _ => by rw [List.modify_nil]
  | n :: items, 0, h => by
    rw [List.modify_zero_cons, renderAll, renderAll, h n List.getElem?_cons_zero]
  | n :: items, i + 1, h => by
    have hrest := renderAll_modify fun item (hi : items[i]? = some item) => h item hi
    rw [List.modify_succ_cons, renderAll, renderAll, hrest]

/-- A tree is written the same when a node in it is exchanged for one that is. -/
theorem render_put {new : Node} : ∀ {path : Path} {t : Node},
    (∀ n, t.at? path = some n → render new = render n) → render (put new path t) = render t
  | [], t, h => by rw [put_nil]; exact h t (at?_nil t)
  | edge :: path, t, h => by
    cases edge <;> cases t <;> try rfl
    · rename_i i items
      rw [put, render, render]
      refine renderAll_modify fun item hi => render_put fun n hn => h n ?_
      rw [at?_item_list, hi]
      exact hn
    · rename_i r
      rw [put]
      refine render_record_content (render_put fun n hn => h n ?_)
      rw [at?_content_record]
      exact hn

end ComponentTree.Markup
