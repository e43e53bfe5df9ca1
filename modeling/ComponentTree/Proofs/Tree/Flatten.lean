import ComponentTree.Proofs.Tree.Flat
import ComponentTree.Proofs.Tree.Path
import ComponentTree.Tree.Identity
import Mathlib.Logic.Relation

/-!
Flattened lists.

The places of a nested list are sequences of indices, and to go through it depth-first, from left to
right, is to go through its places in lexicographic order. Each node that is no list, absent ones
included, stands at one of them, and the flattened list is what one finds on the way (`mem_placed`,
`pairwise_placed`). Nothing is asked of the shape: a list that is flat already takes a shortcut,
with the same outcome (`flatten_eq_leaves`). The same is reached step by step, by dissolving one
inner list after the other into its items (`Dissolves`): each step leaves the flattened list as it
is, so in whatever order they are taken they lead to it. Main statement: `flatten_laws`.
-/

namespace ComponentTree.Node

/-! ### Joined lists -/

theorem leaves_append (xs ys : List Node) : leaves (xs ++ ys) = leaves xs ++ leaves ys := by
  induction xs using leaves.induct with
  | case1 => rw [leaves, List.nil_append, List.nil_append]
  | case2 inner rest _ ih => rw [List.cons_append, leaves, leaves, ih, List.append_assoc]
  | case3 n rest hn ih => rw [List.cons_append, leaves, leaves, ih, List.cons_append] <;> exact hn

theorem flatten_append (xs ys : List Node) : flatten (xs ++ ys) = flatten xs ++ flatten ys := by
  simp only [flatten_eq_leaves, leaves_append]

theorem flatten_of_flat {items : List Node} (h : items.any isList = false) :
    flatten items = items := by
  rw [flatten_eq_leaves, leaves_of_flat h]

theorem any_isList_flatten (items : List Node) : (flatten items).any isList = false := by
  rw [flatten_eq_leaves, any_isList_leaves]

theorem flatten_flatten (items : List Node) : flatten (flatten items) = flatten items :=
  flatten_of_flat (any_isList_flatten items)

theorem keysAll_append (xs ys : List Node) : keysAll (xs ++ ys) = keysAll xs ++ keysAll ys := by
  induction xs with
  | nil => rw [keysAll, List.nil_append, List.nil_append]
  | cons n xs ih => rw [List.cons_append, keysAll, keysAll, ih, List.append_assoc]

theorem keysAll_leaves (items : List Node) : keysAll (leaves items) = keysAll items := by
  induction items using leaves.induct with
  | case1 => rw [leaves]
  | case2 inner rest ih₁ ih₂ => rw [leaves, keysAll_append, keysAll, keys, ih₁, ih₂]
  | case3 n rest hn ih =>
    rw [leaves, keysAll, keysAll, ih]
    exact hn

/-! ### Places -/

/-- At a place in some items stands a node that is no list. -/
def StandsAt (items : List Node) (place : List Nat) (n : Node) : Prop :=
  (list items).at? (place.map .item) = some n ∧ n.isList = false

/-- The nodes that are no lists with their places, where the first item has index `i`. -/
def placed (i : Nat) : List Node → List (List Nat × Node)
  | [] => []
  | .list inner :: rest =>
    (placed 0 inner).map (fun x => (i :: x.1, x.2)) ++ placed (i + 1) rest
  | n :: rest => ([i], n) :: placed (i + 1) rest

theorem map_snd_placed (items : List Node) : ∀ i, (placed i items).map Prod.snd = leaves items := by
  induction items using leaves.induct with
  | case1 => intro i; rw [placed, leaves]; rfl
  | case2 inner rest ih₁ ih₂ =>
    intro i
    rw [placed, leaves, List.map_append, List.map_map, ih₂, ← ih₁ 0]
    rfl
  | case3 n rest hn ih =>
    intro i
    rw [placed, leaves, List.map_cons, ih] <;> exact hn

/-- A node that is no list has nothing at a place but itself. -/
theorem at?_of_not_isList {n m : Node} (hn : n.isList = false) {place : List Nat} :
    n.at? (place.map .item) = some m ↔ place = [] ∧ n = m := by
  cases place with
  | nil => simp [at?_nil]
  | cons i place =>
    refine iff_of_false (fun h => ?_) (fun h => nomatch h.1)
    rcases at?_cons_eq_some h with ⟨_, _, _, _, rfl, _⟩ | ⟨_, h, _⟩ <;> contradiction

/-- A place begins with an index. -/
theorem standsAt_iff_exists {items : List Node} {place : List Nat} {n : Node} :
    StandsAt items place n ↔ ∃ j rest, place = (0 + j) :: rest ∧ StandsAt items (j :: rest) n := by
  constructor
  · intro h
    cases place with
    | nil =>
      rw [StandsAt, List.map_nil, at?_nil, Option.some.injEq] at h
      obtain ⟨rfl, hlist⟩ := h
      cases hlist
    | cons j rest => exact ⟨j, rest, by rw [Nat.zero_add], h⟩
  · rintro ⟨j, rest, rfl, h⟩
    rwa [Nat.zero_add]

/-- What stands at a place stands in the first item or among the others, whose indices are one
less. -/
theorem standsAt_cons {n m : Node} {rest : List Node} {i : Nat} {place : List Nat} :
    (∃ j inside, place = (i + j) :: inside ∧ StandsAt (n :: rest) (j :: inside) m) ↔
      (∃ inside, place = i :: inside ∧
        n.at? (inside.map .item) = some m ∧ m.isList = false) ∨
      ∃ j inside, place = (i + 1 + j) :: inside ∧ StandsAt rest (j :: inside) m := by
  have hzero : ∀ inside, StandsAt (n :: rest) (0 :: inside) m ↔
      n.at? (inside.map .item) = some m ∧ m.isList = false := fun inside => by
    rw [StandsAt, List.map_cons, at?_item_list, List.getElem?_cons_zero, Option.bind_some]
  have hsucc : ∀ j inside, StandsAt (n :: rest) ((j + 1) :: inside) m ↔
      StandsAt rest (j :: inside) m := fun j inside => by
    rw [StandsAt, StandsAt, List.map_cons, List.map_cons, at?_item_list, at?_item_list,
      List.getElem?_cons_succ]
  constructor
  · rintro ⟨j, inside, rfl, h⟩
    cases j with
    | zero => exact Or.inl ⟨inside, rfl, (hzero inside).mp h⟩
    | succ j =>
      exact Or.inr ⟨j, inside, by rw [Nat.add_assoc, Nat.add_comm 1], (hsucc j inside).mp h⟩
  · rintro (⟨inside, rfl, h⟩ | ⟨j, inside, rfl, h⟩)
    · exact ⟨0, inside, rfl, (hzero inside).mpr h⟩
    · exact ⟨j + 1, inside, by rw [Nat.add_assoc, Nat.add_comm 1], (hsucc j inside).mpr h⟩

/-- All nodes that are no lists are there, each with its place. -/
theorem mem_placed (items : List Node) : ∀ (i : Nat) (place : List Nat) (m : Node),
    (place, m) ∈ placed i items ↔
      ∃ j inside, place = (i + j) :: inside ∧ StandsAt items (j :: inside) m := by
  induction items using leaves.induct with
  | case1 =>
    intro i place m
    simp [placed, StandsAt, at?_item_list]
  | case2 inner rest ih₁ ih₂ =>
    intro i place m
    rw [placed, List.mem_append, standsAt_cons, ← ih₂]
    refine or_congr_left ?_
    rw [List.mem_map]
    constructor
    · rintro ⟨⟨inside, _⟩, hmem, heq⟩
      cases heq
      exact ⟨inside, rfl, standsAt_iff_exists.mpr ((ih₁ 0 inside _).mp hmem)⟩
    · rintro ⟨inside, rfl, h⟩
      exact ⟨(inside, m), (ih₁ 0 inside m).mpr (standsAt_iff_exists.mp h), rfl⟩
  | case3 n rest hn ih =>
    intro i place m
    have hlist := isList_eq_false hn
    rw [placed, List.mem_cons, standsAt_cons, ← ih, Prod.mk.injEq]
    · refine or_congr_left ⟨?_, ?_⟩
      · rintro ⟨rfl, rfl⟩
        exact ⟨[], rfl, at?_nil m, hlist⟩
      · rintro ⟨inside, rfl, h, -⟩
        obtain ⟨rfl, rfl⟩ := (at?_of_not_isList hlist).mp h
        exact ⟨rfl, rfl⟩
    · exact hn

/-- The nodes come in the order of their places. -/
theorem pairwise_placed (items : List Node) : ∀ i, (placed i items).Pairwise (·.1 < ·.1) := by
  -- what stands in the first item comes before the others
  have hfirst : ∀ (rest : List Node) (i : Nat) (inside : List Nat),
      ∀ y ∈ placed (i + 1) rest, i :: inside < y.1 := by
    intro rest i inside ⟨place, m⟩ hy
    obtain ⟨j, inside', rfl, -⟩ := (mem_placed rest _ place m).mp hy
    exact List.cons_lt_cons_iff.mpr (Or.inl (by omega))
  induction items using leaves.induct with
  | case1 => intro i; rw [placed]; exact .nil
  | case2 inner rest ih₁ ih₂ =>
    intro i
    rw [placed, List.pairwise_append, List.pairwise_map]
    refine ⟨(ih₁ 0).imp fun h => List.cons_lt_cons_iff.mpr (Or.inr ⟨rfl, h⟩), ih₂ _, ?_⟩
    intro x hx y hy
    obtain ⟨z, -, rfl⟩ := List.mem_map.mp hx
    exact hfirst rest i z.1 y hy
  | case3 n rest hn ih =>
    intro i
    rw [placed]
    · exact .cons (hfirst rest i []) (ih _)
    · exact hn

/-! ### Inner lists -/

theorem leaves_list (items : List Node) : leaves [list items] = leaves items := by
  rw [leaves, leaves, List.append_nil]

theorem leaves_modify {f : Node → Node} : ∀ {items : List Node} {i : Nat},
    (∀ item, items[i]? = some item → leaves [f item] = leaves [item]) →
      leaves (items.modify i f) = leaves items
  | [], _, _ => by rw [List.modify_nil]
  | n :: items, 0, h => by
    rw [List.modify_zero_cons, ← List.singleton_append, leaves_append,
      h n List.getElem?_cons_zero, ← leaves_append, List.singleton_append]
  | n :: items, i + 1, h => by
    have hrest := leaves_modify fun item (hi : items[i]? = some item) => h item hi
    rw [List.modify_succ_cons, ← List.singleton_append, leaves_append, hrest, ← leaves_append,
      List.singleton_append]

/-- The leaves stay the same when a list at a place is exchanged for one that has the same. -/
theorem leaves_put {new : Node} : ∀ {place : List Nat} {t : Node},
    (∀ n, t.at? (place.map .item) = some n → leaves [new] = leaves [n]) →
      leaves [put new (place.map .item) t] = leaves [t]
  | [], t, h => by rw [List.map_nil, put_nil]; exact h t (at?_nil t)
  | i :: place, t, h => by
    cases t with
    | list items =>
      rw [List.map_cons, put, leaves_list, leaves_list]
      refine leaves_modify fun item hi => leaves_put fun n hn => h n ?_
      rw [List.map_cons, at?_item_list, hi]
      exact hn
    | _ => rfl

/-- A list at a place may be flattened beforehand. -/
theorem flattenContent_put {items inner : List Node} {place : List Nat}
    (h : (list items).at? (place.map .item) = some (list inner)) :
    (put (list (flatten inner)) (place.map .item) (list items)).flattenContent =
      list (flatten items) := by
  have hleaves : leaves [put (list (flatten inner)) (place.map .item) (list items)] =
      leaves [list items] := by
    refine leaves_put fun n hn => ?_
    rw [h, Option.some.injEq] at hn
    rw [← hn, leaves_list, leaves_list, ← flatten_eq_leaves, flatten_flatten, flatten_eq_leaves]
  obtain ⟨others, hothers⟩ : ∃ others,
      put (list (flatten inner)) (place.map .item) (list items) = list others := by
    cases place with
    | nil => exact ⟨_, put_nil _ _⟩
    | cons i place => exact ⟨_, by rw [List.map_cons, put]⟩
  rw [hothers, leaves_list, leaves_list] at hleaves
  rw [hothers, flattenContent_list, hleaves, flatten_eq_leaves]

/-! ### One level at a time -/

/-- One list among the items, or inside one of them, is dissolved into its own items. -/
inductive Dissolves : List Node → List Node → Prop
  | here (before inner after : List Node) :
      Dissolves (before ++ list inner :: after) (before ++ inner ++ after)
  | inside (before after : List Node) {inner inner' : List Node} (h : Dissolves inner inner') :
      Dissolves (before ++ list inner :: after) (before ++ list inner' :: after)

theorem Dissolves.flatten_eq {items items' : List Node} (h : Dissolves items items') :
    flatten items' = flatten items := by
  simp only [flatten_eq_leaves]
  induction h with
  | here before inner after =>
    rw [leaves_append, leaves_append, leaves_append, leaves, List.append_assoc]
  | inside before after _ ih => rw [leaves_append, leaves_append, leaves, leaves, ih]

theorem Dissolves.append_left (more : List Node) {items items' : List Node}
    (h : Dissolves items items') : Dissolves (more ++ items) (more ++ items') := by
  cases h with
  | here before inner after =>
    have hstep := Dissolves.here (more ++ before) inner after
    rwa [List.append_assoc, List.append_assoc, List.append_assoc, ← List.append_assoc before]
      at hstep
  | inside before after h =>
    have hstep := Dissolves.inside (more ++ before) after h
    rwa [List.append_assoc, List.append_assoc] at hstep

theorem Dissolves.append_right (more : List Node) {items items' : List Node}
    (h : Dissolves items items') : Dissolves (items ++ more) (items' ++ more) := by
  cases h with
  | here before inner after =>
    have hstep := Dissolves.here before inner (after ++ more)
    rwa [← List.cons_append, ← List.append_assoc, ← List.append_assoc] at hstep
  | inside before after h =>
    have hstep := Dissolves.inside before (after ++ more) h
    rwa [← List.cons_append, ← List.cons_append, ← List.append_assoc, ← List.append_assoc] at hstep

/-- Dissolving one list after the other leads to the leaves. -/
theorem dissolves_leaves (items : List Node) :
    Relation.ReflTransGen Dissolves items (leaves items) := by
  induction items using leaves.induct with
  | case1 => rw [leaves]
  | case2 inner rest ih₁ ih₂ =>
    rw [leaves]
    have hhere : Dissolves (list inner :: rest) (inner ++ rest) := .here [] inner rest
    have hinner : Relation.ReflTransGen Dissolves (inner ++ rest) (leaves inner ++ rest) :=
      ih₁.lift (· ++ rest) fun _ _ h => h.append_right rest
    have hrest : Relation.ReflTransGen Dissolves (leaves inner ++ rest)
        (leaves inner ++ leaves rest) :=
      ih₂.lift (leaves inner ++ ·) fun _ _ h => h.append_left (leaves inner)
    exact .head hhere (hinner.trans hrest)
  | case3 n rest hn ih =>
    rw [leaves]
    · exact ih.lift (n :: ·) fun _ _ h => h.append_left [n]
    · exact hn

theorem flatten_eq_of_dissolves {items items' : List Node}
    (h : Relation.ReflTransGen Dissolves items items') : flatten items' = flatten items := by
  induction h with
  | refl => rfl
  | tail _ hstep ih => exact hstep.flatten_eq.trans ih

/-! ### All together -/

/-- What flattening makes of a list of nodes. -/
structure FlattenLaws (items : List Node) : Prop where
  /-- The flattened list consists of the nodes that are no lists, absent ones included, one for each
  place where such a node stands, in the order of the places. -/
  inOrder : ∃ placed : List (List Nat × Node), placed.map Prod.snd = flatten items ∧
    placed.Pairwise (·.1 < ·.1) ∧ ∀ place n, (place, n) ∈ placed ↔ StandsAt items place n
  /-- The records keep their identities. -/
  identities : keysAll (flatten items) = keysAll items
  /-- The shortcut for flat lists makes no difference. -/
  shortcut : flatten items = leaves items
  append : ∀ more, flatten (items ++ more) = flatten items ++ flatten more
  idempotent : flatten (flatten items) = flatten items
  /-- The items may be flattened before they are joined to others. -/
  joined : ∀ before after,
    flatten (before ++ flatten items ++ after) = flatten (before ++ items ++ after)
  /-- A list at any place may be flattened before the list around it. -/
  inner : ∀ (place : List Nat) (inner : List Node),
    (list items).at? (place.map .item) = some (list inner) →
      (put (list (flatten inner)) (place.map .item) (list items)).flattenContent =
        list (flatten items)
  /-- Dissolving one list after the other leads to the flattened list. -/
  reached : Relation.ReflTransGen Dissolves items (flatten items)
  /-- In whatever order this is begun, it can be finished so, and it ends with nothing else. -/
  confluent : ∀ items', Relation.ReflTransGen Dissolves items items' →
    Relation.ReflTransGen Dissolves items' (flatten items) ∧
      (items'.any isList = false → items' = flatten items)

/-- Flattening is as promised, for every list of nodes, nested to any depth. -/
theorem flatten_laws (items : List Node) : FlattenLaws items := by
  have hreached : ∀ others, Relation.ReflTransGen Dissolves others (flatten others) :=
    fun others => flatten_eq_leaves others ▸ dissolves_leaves others
  constructor
  · refine ⟨placed 0 items, ?_, pairwise_placed items 0, fun place n => ?_⟩
    · rw [map_snd_placed, flatten_eq_leaves]
    · rw [mem_placed, standsAt_iff_exists]
  · rw [flatten_eq_leaves, keysAll_leaves]
  · exact flatten_eq_leaves items
  · exact flatten_append items
  · exact flatten_flatten items
  · intro before after
    simp only [flatten_append, flatten_flatten]
  · exact fun _ _ => flattenContent_put
  · exact hreached items
  · intro items' h
    have heq := flatten_eq_of_dissolves h
    exact ⟨heq ▸ hreached items', fun hflat => heq ▸ (flatten_of_flat hflat).symm⟩

/-- Empty lists vanish, and what is absent stays. -/
example : flatten [list [list [], absent], text "a", list [list [bool false, text "b"]]] =
    [absent, text "a", bool false, text "b"] := by cbv

end ComponentTree.Node
