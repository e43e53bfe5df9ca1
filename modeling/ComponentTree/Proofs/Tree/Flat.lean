import ComponentTree.Expansion.Pass

/-!
Flat trees.

A tree is flat if it is not a list with a list among its items. Main statements: flattening a list
gives its leaves, whether or not it is flat already (`flatten_eq_leaves`), flattened content is flat
(`isFlat_flattenContent`), and a flat tree stays flat when something that is no list is put into it
(`isFlat_put`).
-/

namespace ComponentTree.Node

/-- Whether the node is not a list with a list among its items. -/
def isFlat : Node → Bool
  | .list items => !items.any isList
  | _ => true

theorem isFlat_list {items : List Node} :
    (list items).isFlat = true ↔ ∀ n ∈ items, n.isList = false := by
  simp [isFlat]

theorem isFlat_of_not_isList {n : Node} (h : n.isList = false) : n.isFlat = true := by
  cases n with
  | list => cases h
  | _ => rfl

/-! ### Flattened content -/

theorem isList_eq_false {n : Node} (h : ∀ items, n ≠ list items) : n.isList = false := by
  cases n with
  | list items => exact absurd rfl (h items)
  | _ => rfl

theorem leaves_cons {n : Node} (h : n.isList = false) (ns : List Node) :
    leaves (n :: ns) = n :: leaves ns := by
  rw [leaves]
  rintro _ rfl
  cases h

theorem any_isList_leaves (items : List Node) : (leaves items).any isList = false := by
  induction items using leaves.induct with
  | case1 => rw [leaves]; rfl
  | case2 inner rest ih₁ ih₂ => rw [leaves, List.any_append, ih₁, ih₂]; rfl
  | case3 n rest hn ih =>
    have hlist := isList_eq_false hn
    rw [leaves_cons hlist, List.any_cons, hlist, ih, Bool.or_self]

theorem leaves_of_flat {items : List Node} (h : items.any isList = false) :
    leaves items = items := by
  induction items with
  | nil => rw [leaves]
  | cons n rest ih =>
    rw [List.any_cons, Bool.or_eq_false_iff] at h
    rw [leaves_cons h.1, ih h.2]

/-- A flat list would not have needed the shortcut that it takes. -/
theorem flatten_eq_leaves (items : List Node) : flatten items = leaves items := by
  rw [flatten]
  split
  · rfl
  · rename_i h
    exact (leaves_of_flat (Bool.eq_false_iff.mpr h)).symm

theorem flattenContent_list (items : List Node) :
    (list items).flattenContent = list (leaves items) := by
  rw [flattenContent, flatten_eq_leaves]

theorem isFlat_flattenContent (n : Node) : n.flattenContent.isFlat = true := by
  cases n with
  | list items => rw [flattenContent_list, isFlat, any_isList_leaves]; rfl
  | _ => rfl

theorem flattenContent_of_isFlat {n : Node} (h : n.isFlat = true) : n.flattenContent = n := by
  cases n with
  | list items =>
    rw [isFlat, Bool.not_eq_true'] at h
    rw [flattenContent_list, leaves_of_flat h]
  | _ => rfl

/-! ### Putting a node into a flat tree -/

theorem isList_put {new t : Node} (hnew : new.isList = false) (ht : t.isList = false)
    (path : Path) : (put new path t).isList = false := by
  cases path with
  | nil => rw [put]; exact hnew
  | cons edge path => cases edge <;> cases t <;> exact ht

/-- A flat tree stays flat when something that is no list is put into it. -/
theorem isFlat_put {new t : Node} (hnew : new.isList = false) (ht : t.isFlat = true)
    (path : Path) : (put new path t).isFlat = true := by
  cases path with
  | nil => rw [put]; exact isFlat_of_not_isList hnew
  | cons edge path =>
    cases edge with
    | content => cases t <;> exact ht
    | item i =>
      cases t with
      | list items =>
        rw [isFlat_list] at ht
        rw [put, isFlat_list]
        intro n hn
        obtain ⟨j, hj⟩ := List.mem_iff_getElem?.mp hn
        rw [List.getElem?_modify, Option.map_eq_map, Option.map_eq_some_iff] at hj
        obtain ⟨m, hm, rfl⟩ := hj
        have hlist := ht m (List.mem_of_getElem? hm)
        split
        · exact isList_put hnew hlist path
        · exact hlist
      | _ => exact ht

end ComponentTree.Node
