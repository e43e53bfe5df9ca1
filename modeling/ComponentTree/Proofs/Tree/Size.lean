import ComponentTree.Proofs.Tree.Flat
import ComponentTree.Proofs.Tree.Path
import ComponentTree.Tree.Identity

/-!
What expansion can come to in a tree.

Expansion goes into lists and into the content of records, and not into mixins. The size of a node
counts the lists and records to which it can go that way, and the reached keys are the identities of
those records. Main statements: what is inside a node is smaller (`size_lt_list`,
`size_content_lt`), and flattening keeps all records in reach and makes nothing larger
(`reachedKeys_flattenContent`, `size_flattenContent_le`).
-/

namespace ComponentTree

mutual

/-- The number of lists and records to which expansion can go. -/
def Node.size : Node → Nat
  | .list items => Node.sizeAll items + 1
  | .record r => Record.size r
  | _ => 0

/-- The sizes of nodes together. -/
def Node.sizeAll : List Node → Nat
  | [] => 0
  | n :: ns => Node.size n + Node.sizeAll ns

/-- The number of lists and records to which expansion can go from a record, with itself. -/
def Record.size : Record → Nat
  | { content, .. } => Node.size content + 1

end

mutual

/-- The keys of all records to which expansion can go. -/
def Node.reachedKeys : Node → List Key
  | .list items => Node.reachedKeysAll items
  | .record r => Record.reachedKeys r
  | _ => []

/-- The keys of all records to which expansion can go from a list of nodes. -/
def Node.reachedKeysAll : List Node → List Key
  | [] => []
  | n :: ns => Node.reachedKeys n ++ Node.reachedKeysAll ns

/-- The keys of a record and of all records to which expansion can go from it. -/
def Record.reachedKeys : Record → List Key
  | { key, content, .. } => key :: Node.reachedKeys content

end

namespace Node

/-! ### Sizes -/

theorem size_record (r : Record) : (record r).size = r.content.size + 1 := by
  cases r; rfl

theorem size_content_lt (r : Record) : r.content.size < (record r).size := by
  rw [size_record]
  exact Nat.lt_succ_self _

theorem size_le_sizeAll {n : Node} : ∀ {items : List Node}, n ∈ items → n.size ≤ sizeAll items
  | m :: rest, h => by
    rw [sizeAll]
    rcases List.mem_cons.mp h with rfl | h
    · exact Nat.le_add_right _ _
    · exact Nat.le_trans (size_le_sizeAll h) (Nat.le_add_left _ _)

theorem size_lt_list {n : Node} {items : List Node} (h : n ∈ items) :
    n.size < (list items).size := Nat.lt_succ_of_le (size_le_sizeAll h)

theorem sizeAll_append (xs ys : List Node) : sizeAll (xs ++ ys) = sizeAll xs + sizeAll ys := by
  induction xs with
  | nil => rw [List.nil_append, sizeAll, Nat.zero_add]
  | cons x xs ih => rw [List.cons_append, sizeAll, sizeAll, ih, Nat.add_assoc]

theorem sizeAll_leaves_le (items : List Node) : sizeAll (leaves items) ≤ sizeAll items := by
  induction items using leaves.induct with
  | case1 => exact Nat.le_of_eq (by rw [leaves])
  | case2 inner rest ih₁ ih₂ =>
    rw [leaves, sizeAll_append, sizeAll, size]
    omega
  | case3 n rest hn ih =>
    rw [leaves, sizeAll, sizeAll]
    · omega
    · exact hn

theorem size_flattenContent_le (n : Node) : n.flattenContent.size ≤ n.size := by
  cases n with
  | list items =>
    rw [flattenContent_list, size, size]
    exact Nat.succ_le_succ (sizeAll_leaves_le items)
  | _ => exact Nat.le_refl _

/-! ### Reached keys -/

theorem reachedKeys_record (r : Record) :
    (record r).reachedKeys = r.key :: r.content.reachedKeys := by
  cases r; rfl

theorem reachedKeysAll_append (xs ys : List Node) :
    reachedKeysAll (xs ++ ys) = reachedKeysAll xs ++ reachedKeysAll ys := by
  induction xs with
  | nil => rfl
  | cons x xs ih => rw [List.cons_append, reachedKeysAll, reachedKeysAll, ih, List.append_assoc]

theorem mem_reachedKeysAll {key : Key} {n : Node} (hk : key ∈ n.reachedKeys) :
    ∀ {items : List Node}, n ∈ items → key ∈ reachedKeysAll items
  | m :: rest, h => by
    rw [reachedKeysAll, List.mem_append]
    rcases List.mem_cons.mp h with rfl | h
    · exact Or.inl hk
    · exact Or.inr (mem_reachedKeysAll hk h)

/-- A record that a path leads to is in reach. -/
theorem key_mem_reachedKeys {path : Path} {t : Node} {r : Record}
    (h : t.at? path = some (.record r)) : r.key ∈ t.reachedKeys := by
  induction path generalizing t with
  | nil =>
    rw [at?_nil, Option.some.injEq] at h
    rw [h, reachedKeys_record]
    exact List.mem_cons_self ..
  | cons edge path ih =>
    rcases at?_cons_eq_some h with ⟨i, items, item, -, rfl, hi, hr⟩ | ⟨r', -, rfl, hr⟩
    · exact mem_reachedKeysAll (ih hr) (List.mem_of_getElem? hi)
    · rw [reachedKeys_record]
      exact List.mem_cons_of_mem _ (ih hr)

theorem reachedKeysAll_leaves (items : List Node) :
    reachedKeysAll (leaves items) = reachedKeysAll items := by
  induction items using leaves.induct with
  | case1 => rw [leaves]
  | case2 inner rest ih₁ ih₂ =>
    rw [leaves, reachedKeysAll_append, reachedKeysAll, reachedKeys, ih₁, ih₂]
  | case3 n rest hn ih =>
    rw [leaves, reachedKeysAll, reachedKeysAll, ih]
    exact hn

theorem reachedKeys_flattenContent (n : Node) : n.flattenContent.reachedKeys = n.reachedKeys := by
  cases n with
  | list items =>
    rw [flattenContent_list, reachedKeys, reachedKeys, reachedKeysAll_leaves]
  | _ => rfl

/-! ### What is inside a node -/

/-- The nodes at the places that are queued for a node: the items of a list into which expansion
goes, or the node itself if expansion goes into it. -/
def inside : Node → List Node
  | .list items => items.filter isInner
  | .record r => [.record r]
  | _ => []

theorem size_le_of_mem_inside {n m : Node} (h : m ∈ n.inside) : m.size ≤ n.size := by
  cases n with
  | list items => exact Nat.le_of_lt (size_lt_list (List.mem_filter.mp h).1)
  | record r => exact Nat.le_of_eq (congrArg size (List.mem_singleton.mp h))
  | _ => cases h

/-- The number of turns that are enough for a node: one at least, for looking at it. -/
def turns (n : Node) : Nat := max 1 n.size

/-- The turns of nodes together. -/
def turnsAll : List Node → Nat
  | [] => 0
  | n :: ns => n.turns + turnsAll ns

theorem turnsAll_append (xs ys : List Node) : turnsAll (xs ++ ys) = turnsAll xs + turnsAll ys := by
  induction xs with
  | nil => rw [List.nil_append, turnsAll, Nat.zero_add]
  | cons x xs ih => rw [List.cons_append, turnsAll, turnsAll, ih, Nat.add_assoc]

theorem size_of_not_isInner {n : Node} (h : n.isInner = false) : n.size = 0 := by
  cases n <;> first | rfl | cases h

theorem turns_le_turnsAll {n : Node} : ∀ {ns : List Node}, n ∈ ns → n.turns ≤ turnsAll ns
  | m :: ns, h => by
    rw [turnsAll]
    rcases List.mem_cons.mp h with rfl | h
    · exact Nat.le_add_right ..
    · exact Nat.le_trans (turns_le_turnsAll h) (Nat.le_add_left ..)

theorem turns_of_isInner {n : Node} (h : n.isInner = true) : n.turns = n.size := by
  refine Nat.max_eq_right ?_
  cases n with
  | list items => exact Nat.succ_pos _
  | record r => rw [size_record]; exact Nat.succ_pos _
  | _ => cases h

theorem turnsAll_filter (items : List Node) :
    turnsAll (items.filter isInner) = sizeAll items := by
  induction items with
  | nil => rfl
  | cons n items ih =>
    rw [sizeAll]
    cases hn : n.isInner with
    | true =>
      rw [List.filter_cons_of_pos hn, turnsAll, ih, turns_of_isInner hn]
    | false =>
      rw [List.filter_cons_of_neg (by rw [hn]; exact Bool.false_ne_true), ih,
        size_of_not_isInner hn, Nat.zero_add]

theorem turnsAll_inside_le (n : Node) : turnsAll n.inside ≤ n.size := by
  cases n with
  | list items =>
    rw [inside, turnsAll_filter]
    exact Nat.le_succ _
  | record r =>
    refine Nat.le_of_eq ?_
    rw [inside, turnsAll, turnsAll, Nat.add_zero, turns_of_isInner rfl]
  | _ => exact Nat.le_refl _

/-- The items of a list take fewer turns than the list. -/
theorem turnsAll_inside_lt (items : List Node) :
    turnsAll (list items).inside < (list items).turns := by
  rw [inside, turnsAll_filter, turns_of_isInner rfl]
  exact Nat.lt_succ_self _

/-- What is inside the flattened content of a record takes fewer turns than the record. -/
theorem turnsAll_content_lt (r : Record) :
    turnsAll r.content.flattenContent.inside < (record r).turns := by
  rw [turns_of_isInner rfl]
  exact Nat.lt_of_le_of_lt (Nat.le_trans (turnsAll_inside_le _) r.content.size_flattenContent_le)
    (size_content_lt r)

theorem reachedKeysAll_filter (items : List Node) :
    reachedKeysAll (items.filter isInner) = reachedKeysAll items := by
  induction items with
  | nil => rfl
  | cons n items ih =>
    rw [reachedKeysAll]
    cases hn : n.isInner with
    | true => rw [List.filter_cons_of_pos hn, reachedKeysAll, ih]
    | false =>
      have hnone : n.reachedKeys = [] := by cases n <;> first | rfl | cases hn
      rw [List.filter_cons_of_neg (by rw [hn]; exact Bool.false_ne_true), ih, hnone,
        List.nil_append]

theorem reachedKeysAll_inside (n : Node) : reachedKeysAll n.inside = n.reachedKeys := by
  cases n with
  | list items => exact reachedKeysAll_filter items
  | record r => exact List.append_nil _
  | _ => rfl

end Node

mutual

/-- The records that expansion can go to are some of the records of the tree. -/
theorem Node.reachedKeys_sublist : ∀ n : Node, n.reachedKeys.Sublist n.keys
  | .absent | .bool _ | .number _ | .text _ => List.Sublist.refl _
  | .list items => by
    rw [Node.reachedKeys, Node.keys]
    exact Node.reachedKeysAll_sublist items
  | .record r => by
    rw [Node.reachedKeys, Node.keys]
    exact Record.reachedKeys_sublist r

theorem Node.reachedKeysAll_sublist :
    ∀ ns : List Node, (Node.reachedKeysAll ns).Sublist (Node.keysAll ns)
  | [] => List.Sublist.refl _
  | n :: ns => by
    rw [Node.reachedKeysAll, Node.keysAll]
    exact (Node.reachedKeys_sublist n).append (Node.reachedKeysAll_sublist ns)

theorem Record.reachedKeys_sublist : ∀ r : Record, r.reachedKeys.Sublist r.keys
  | ⟨key, _, _, _, _, content, mixins, _⟩ => by
    rw [Record.reachedKeys, Record.keys]
    exact ((Node.reachedKeys_sublist content).trans (List.sublist_append_left _ _)).cons_cons key

end

end ComponentTree
