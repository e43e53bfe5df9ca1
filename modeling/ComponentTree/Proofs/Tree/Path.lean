import ComponentTree.Expansion.Pass

/-!
Paths into trees.

Main statements: what is found at a path after another node was put at some path. Below that path it
is what the new node has there, apart from it nothing has changed (`at?_put_apart`), and above it a
record has stayed the same but for its content (`record_put_below`).
-/

namespace ComponentTree

/-- Neither path leads through the other. -/
def Path.Apart (p q : Path) : Prop := ¬ p <+: q ∧ ¬ q <+: p

namespace Path

theorem Apart.symm {p q : Path} (h : Apart p q) : Apart q p := ⟨h.2, h.1⟩

/-- What is apart from a path is apart from every path through it. -/
theorem Apart.append {p q : Path} (h : Apart p q) (rest : Path) : Apart p (q ++ rest) := by
  refine ⟨fun hp => ?_, fun hp => h.2 ((List.prefix_append q rest).trans hp)⟩
  rcases List.prefix_or_prefix_of_prefix hp (List.prefix_append q rest) with hpq | hqp
  · exact h.1 hpq
  · exact h.2 hqp

theorem Apart.of_prefix {p q q' : Path} (h : Apart p q) (hq : q <+: q') : Apart p q' := by
  obtain ⟨rest, rfl⟩ := hq
  exact h.append rest

/-- A path leads through another one, is led through by it, or is apart from it. -/
theorem through_or_above_or_apart (p q : Path) :
    (∃ rest, q = p ++ rest) ∨ (∃ rest, rest ≠ [] ∧ p = q ++ rest) ∨ Apart p q := by
  by_cases hp : p <+: q
  · obtain ⟨rest, rfl⟩ := hp
    exact Or.inl ⟨rest, rfl⟩
  · by_cases hq : q <+: p
    · obtain ⟨rest, rfl⟩ := hq
      refine Or.inr (Or.inl ⟨rest, ?_, rfl⟩)
      rintro rfl
      exact hp (by simp)
    · exact Or.inr (Or.inr ⟨hp, hq⟩)

end Path

namespace Node

theorem at?_nil (t : Node) : t.at? [] = some t := by
  unfold at?; rfl

theorem at?_item_list (i : Nat) (path : Path) (items : List Node) :
    (list items).at? (.item i :: path) = items[i]?.bind (at? path) := by
  rw [at?]

theorem at?_content_record (path : Path) (r : Record) :
    (record r).at? (.content :: path) = r.content.at? path := by
  rw [at?]

/-- The two ways in which a path of more than one step leads somewhere. -/
theorem at?_cons_eq_some {edge : Edge} {path : Path} {t n : Node}
    (h : t.at? (edge :: path) = some n) :
    (∃ i items item, edge = .item i ∧ t = list items ∧ items[i]? = some item ∧
      item.at? path = some n) ∨
    ∃ r, edge = .content ∧ t = record r ∧ r.content.at? path = some n := by
  cases edge with
  | item i =>
    cases t with
    | list items =>
      rw [at?_item_list, Option.bind_eq_some_iff] at h
      obtain ⟨item, hi, hn⟩ := h
      exact Or.inl ⟨i, items, item, rfl, rfl, hi, hn⟩
    | _ => simp [at?] at h
  | content =>
    cases t with
    | record r =>
      rw [at?_content_record] at h
      exact Or.inr ⟨r, rfl, rfl, h⟩
    | _ => simp [at?] at h

/-- Going along `p ++ q` is going along `p`, and then along `q` from there. -/
theorem at?_append (t : Node) (p q : Path) : t.at? (p ++ q) = (t.at? p).bind (at? q) := by
  induction p generalizing t with
  | nil => rw [at?_nil]; rfl
  | cons edge p ih =>
    cases edge <;> cases t <;> try rfl
    · rename_i i items
      rw [List.cons_append, at?_item_list, at?_item_list, Option.bind_assoc]
      exact congrArg _ (funext ih)
    · exact ih _

/-- A node into which expansion does not go holds nothing but itself. -/
theorem at?_scalar {t n : Node} {path : Path} (ht : t.isInner = false) (h : t.at? path = some n) :
    path = [] ∧ t = n := by
  cases path with
  | nil => rw [at?_nil] at h; exact ⟨rfl, by simpa using h⟩
  | cons edge path =>
    rcases at?_cons_eq_some h with ⟨i, items, item, -, rfl, -⟩ | ⟨r, -, rfl, -⟩ <;> cases ht

/-- A node that a record is found in is one into which expansion goes. -/
theorem isInner_of_at?_record {t : Node} {path : Path} {r : Record}
    (h : t.at? path = some (record r)) : t.isInner = true := by
  cases ht : t.isInner with
  | true => rfl
  | false => obtain ⟨-, rfl⟩ := at?_scalar ht h; cases ht

/-! ### Putting a node at a path -/

theorem put_nil (new t : Node) : put new [] t = new := by
  unfold put; rfl

/-- A node put below a path is put into what is found there. -/
theorem at?_put_below (new t : Node) (p rest : Path) :
    (put new (p ++ rest) t).at? p = (t.at? p).map (put new rest) := by
  induction p generalizing t with
  | nil => rw [List.nil_append, at?_nil, at?_nil]; rfl
  | cons edge p ih =>
    rw [List.cons_append]
    cases edge <;> cases t <;> try rfl
    · rename_i i items
      rw [put, at?_item_list, at?_item_list, List.getElem?_modify_eq]
      cases items[i]? with
      | none => rfl
      | some item => exact ih item
    · rw [put, at?_content_record, at?_content_record]
      exact ih _

theorem at?_put_self {p : Path} {t : Node} (new : Node) (h : (t.at? p).isSome) :
    (put new p t).at? p = some new := by
  obtain ⟨n, hn⟩ := Option.isSome_iff_exists.mp h
  have hp := at?_put_below new t p []
  rw [List.append_nil, hn] at hp
  rw [hp, Option.map_some, put_nil]

/-- Below the place where a node was put, the tree is that node. -/
theorem at?_put_append {p : Path} {t : Node} (new : Node) (h : (t.at? p).isSome) (q : Path) :
    (put new p t).at? (p ++ q) = new.at? q := by
  rw [at?_append, at?_put_self new h]; rfl

/-- Apart from the place where a node was put, the tree is as before. -/
theorem at?_put_apart {p q : Path} (new t : Node) (h : Path.Apart p q) :
    (put new p t).at? q = t.at? q := by
  induction p generalizing t q with
  | nil => exact absurd List.nil_prefix h.1
  | cons edge p ih =>
    obtain _ | ⟨edge', q⟩ := q
    · exact absurd List.nil_prefix h.2
    by_cases he : edge = edge'
    · subst he
      have hpq : Path.Apart p q :=
        ⟨fun hp => h.1 (List.cons_prefix_cons.mpr ⟨rfl, hp⟩),
          fun hq => h.2 (List.cons_prefix_cons.mpr ⟨rfl, hq⟩)⟩
      cases edge <;> cases t <;> try rfl
      · rename_i i items
        rw [put, at?_item_list, at?_item_list, List.getElem?_modify_eq]
        cases items[i]? with
        | none => rfl
        | some item => exact ih item hpq
      · rw [put, at?_content_record, at?_content_record]
        exact ih _ hpq
    · cases edge <;> cases t <;> cases edge' <;> try rfl
      · rename_i i items j
        have hij : i ≠ j := fun hij => he (by rw [hij])
        rw [put, at?_item_list, at?_item_list, List.getElem?_modify_ne _ _ hij]
      · exact absurd rfl he

/-- A record above the place where a node was put has stayed the same but for its content, and so
has its content unless the node was put into it. -/
theorem record_put_below {p rest : Path} {new t : Node} {r : Record} (hrest : rest ≠ [])
    (h : (put new (p ++ rest) t).at? p = some (record r)) :
    ∃ r₀, t.at? p = some (record r₀) ∧ r = { r₀ with content := r.content } ∧
      (r.content = r₀.content ∨
        ∃ rest', rest = .content :: rest' ∧ r.content = put new rest' r₀.content) := by
  rw [at?_put_below, Option.map_eq_some_iff] at h
  obtain ⟨n, hn, hr⟩ := h
  obtain ⟨edge, rest, rfl⟩ := List.exists_cons_of_ne_nil hrest
  cases edge <;> cases n <;> simp only [put, reduceCtorEq, record.injEq] at hr
  · cases r
    cases hr
    exact ⟨_, hn, rfl, Or.inl rfl⟩
  · subst hr
    exact ⟨_, hn, rfl, Or.inr ⟨rest, rfl, rfl⟩⟩

end Node

end ComponentTree
