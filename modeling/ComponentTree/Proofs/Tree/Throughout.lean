import ComponentTree.Proofs.Tree.Path
import ComponentTree.Proofs.Tree.Size

/-!
What holds throughout a tree.

A property holds throughout a tree if every node has it to which expansion can go. Main statements:
a property that looks at no more than the surface of a node still holds throughout a tree when
something is put into the tree (`Throughout.put`) and when content is flattened
(`Throughout.flattenContent`), and whatever follows for a node from its property and from what is
inside it follows for the tree (`Throughout.induct`).
-/

namespace ComponentTree

namespace Node

variable {P Q : Node → Prop}

/-- Every node has the property to which a path leads. -/
def Throughout (P : Node → Prop) (t : Node) : Prop := ∀ path n, t.at? path = some n → P n

/-- The property looks neither at the items of a list nor at the content of a record. -/
structure OfSurface (P : Node → Prop) : Prop where
  list : ∀ items, P (.list items)
  content : ∀ r content, P (.record r) → P (.record { r with content })

/-- If the node is a record, it has the property. -/
def OfRecord (Q : Record → Prop) (n : Node) : Prop := ∀ r, n = .record r → Q r

theorem throughout_ofRecord {Q : Record → Prop} {t : Node} :
    t.Throughout (OfRecord Q) ↔ ∀ path r, t.at? path = some (.record r) → Q r :=
  ⟨fun h path r hr => h path _ hr r rfl, fun h path _ hn r hr => h path r (hr ▸ hn)⟩

theorem ofRecord_record {Q : Record → Prop} {r : Record} : OfRecord Q (.record r) ↔ Q r :=
  ⟨fun h => h r rfl, fun h _ heq => Node.record.inj heq ▸ h⟩

theorem OfSurface.ofRecord {Q : Record → Prop} (h : ∀ r content, Q r → Q { r with content }) :
    OfSurface (OfRecord Q) where
  list _ _ := nofun
  content r content hr _ heq := by
    cases heq
    exact h r content (hr r rfl)

theorem OfSurface.and (hP : OfSurface P) (hQ : OfSurface Q) : OfSurface fun n => P n ∧ Q n where
  list items := ⟨hP.list items, hQ.list items⟩
  content r content h := ⟨hP.content r content h.1, hQ.content r content h.2⟩

/-- A node into which something is put below it keeps what holds of its surface. -/
theorem OfSurface.put_below (hP : OfSurface P) {n : Node} (h : P n) (new : Node) (edge : Edge)
    (path : Path) : P (put new (edge :: path) n) := by
  cases edge <;> cases n <;> first
    | exact h
    | exact hP.list _
    | exact hP.content _ _ h

theorem throughout_list_iff (hP : OfSurface P) {items : List Node} :
    (list items).Throughout P ↔ ∀ item ∈ items, item.Throughout P := by
  constructor
  · intro h item hi path n hn
    obtain ⟨i, hi⟩ := List.getElem?_of_mem hi
    refine h (.item i :: path) n ?_
    rw [at?_item_list, hi]
    exact hn
  · rintro h (_ | ⟨edge, path⟩) n hn
    · rw [at?_nil, Option.some.injEq] at hn
      exact hn ▸ hP.list items
    · rcases at?_cons_eq_some hn with ⟨_, _, item, _, hl, hi, hn⟩ | ⟨_, _, hl, _⟩ <;> cases hl
      exact h item (List.mem_of_getElem? hi) path n hn

theorem throughout_record_iff {r : Record} :
    (record r).Throughout P ↔ P (.record r) ∧ r.content.Throughout P := by
  constructor
  · intro h
    refine ⟨h [] _ (at?_nil _), fun path n hn => h (.content :: path) n ?_⟩
    rw [at?_content_record]
    exact hn
  · rintro ⟨hr, hc⟩ (_ | ⟨edge, path⟩) n hn
    · rw [at?_nil, Option.some.injEq] at hn
      exact hn ▸ hr
    · rcases at?_cons_eq_some hn with ⟨_, _, _, _, hl, _⟩ | ⟨_, _, hl, hn⟩ <;> cases hl
      exact hc path n hn

namespace Throughout

theorem imp {t : Node} (h : t.Throughout P) (hPQ : ∀ n, P n → Q n) : t.Throughout Q :=
  fun path n hn => hPQ n (h path n hn)

/-- What a list hands down to its items and a record to its content holds throughout. -/
theorem of_inside (list : ∀ items, P (.list items) → ∀ n ∈ items, P n)
    (record : ∀ r, P (.record r) → P r.content) {t : Node} (h : P t) : t.Throughout P := by
  intro path
  induction path generalizing t with
  | nil =>
    intro n hn
    rw [at?_nil, Option.some.injEq] at hn
    exact hn ▸ h
  | cons edge path ih =>
    intro n hn
    rcases at?_cons_eq_some hn with ⟨_, items, item, -, rfl, hi, hitem⟩ | ⟨r, -, rfl, hcontent⟩
    · exact ih (list items h item (List.mem_of_getElem? hi)) n hitem
    · exact ih (record r h) n hcontent

theorem at? {t n : Node} {path : Path} (h : t.Throughout P) (hn : t.at? path = some n) :
    n.Throughout P := by
  intro rest m hm
  refine h (path ++ rest) m ?_
  rw [at?_append, hn]
  exact hm

theorem leaves (hP : OfSurface P) {items : List Node} (h : ∀ item ∈ items, item.Throughout P) :
    ∀ item ∈ leaves items, item.Throughout P := by
  induction items using leaves.induct with
  | case1 => rw [Node.leaves]; exact h
  | case2 inner rest ih₁ ih₂ =>
    obtain ⟨hinner, hrest⟩ := List.forall_mem_cons.mp h
    rw [Node.leaves, List.forall_mem_append]
    exact ⟨ih₁ ((throughout_list_iff hP).mp hinner), ih₂ hrest⟩
  | case3 n rest hn ih =>
    obtain ⟨hn', hrest⟩ := List.forall_mem_cons.mp h
    rw [Node.leaves, List.forall_mem_cons]
    · exact ⟨hn', ih hrest⟩
    · exact hn

theorem flattenContent (hP : OfSurface P) {n : Node} (h : n.Throughout P) :
    n.flattenContent.Throughout P := by
  cases n with
  | list items =>
    rw [flattenContent_list, throughout_list_iff hP]
    exact leaves hP ((throughout_list_iff hP).mp h)
  | _ => exact h

theorem put (hP : OfSurface P) {new t : Node} (h : t.Throughout P) (hnew : new.Throughout P)
    (p : Path) : (Node.put new p t).Throughout P := by
  intro path n hn
  rcases Path.through_or_above_or_apart p path with ⟨rest, rfl⟩ | ⟨rest, hne, rfl⟩ | ha
  · cases hp : t.at? p with
    | none =>
      have hput := at?_put_below new t p []
      rw [List.append_nil, hp, Option.map_none] at hput
      rw [at?_append, hput] at hn
      cases hn
    | some m =>
      rw [at?_put_append new (by rw [hp]; rfl)] at hn
      exact hnew rest n hn
  · obtain ⟨edge, rest, rfl⟩ := List.exists_cons_of_ne_nil hne
    rw [at?_put_below, Option.map_eq_some_iff] at hn
    obtain ⟨m, hm, rfl⟩ := hn
    exact hP.put_below (h path m hm) new edge rest
  · rw [at?_put_apart new t ha] at hn
    exact h path n hn

/-- Induction over the nodes to which expansion can go. -/
@[elab_as_elim]
theorem induct (hP : OfSurface P) {motive : Node → Prop}
    (scalar : ∀ n : Node, n.isInner = false → P n → motive n)
    (list : ∀ items, (∀ n ∈ items, motive n) → motive (.list items))
    (record : ∀ r, P (.record r) → motive r.content → motive (.record r)) :
    ∀ t : Node, t.Throughout P → motive t
  | .list items, h => list items fun n hn =>
      induct hP scalar list record n ((throughout_list_iff hP).mp h n hn)
  | .record r, h =>
      have hr := throughout_record_iff.mp h
      record r hr.1 (induct hP scalar list record r.content hr.2)
  | .absent, h | .bool _, h | .number _, h | .text _, h => scalar _ rfl (h [] _ (at?_nil _))
termination_by t => t.size
decreasing_by
  · exact size_lt_list hn
  · exact size_content_lt r

end Throughout

end Node

/-! ### Properties of records that can be decided -/

mutual

/-- Whether all records to which expansion can go have a property. -/
def Node.allRecords (p : Record → Bool) : Node → Bool
  | .list items => Node.allRecordsOf p items
  | .record r => Record.allRecords p r
  | _ => true

/-- Whether all records to which expansion can go from a list of nodes have a property. -/
def Node.allRecordsOf (p : Record → Bool) : List Node → Bool
  | [] => true
  | n :: ns => Node.allRecords p n && Node.allRecordsOf p ns

/-- Whether a record and all records to which expansion can go from it have a property. -/
def Record.allRecords (p : Record → Bool) : Record → Bool
  | ⟨key, component, part, variant, params, content, mixins, rendering⟩ =>
    p ⟨key, component, part, variant, params, content, mixins, rendering⟩ &&
      Node.allRecords p content

end

theorem Node.allRecordsOf_mem {p : Record → Bool} {n : Node} :
    ∀ {items : List Node}, Node.allRecordsOf p items = true → n ∈ items → n.allRecords p = true
  | m :: rest, h, hn => by
    rw [Node.allRecordsOf, Bool.and_eq_true] at h
    rcases List.mem_cons.mp hn with rfl | hn
    · exact h.1
    · exact Node.allRecordsOf_mem h.2 hn

theorem Node.allRecords_record {p : Record → Bool} {r : Record} :
    (record r).allRecords p = true ↔ p r = true ∧ r.content.allRecords p = true := by
  cases r
  exact Bool.and_eq_true_iff

theorem Node.allRecords_at? {p : Record → Bool} {path : Path} {t : Node} {r : Record}
    (h : t.allRecords p = true) (hr : t.at? path = some (.record r)) : p r = true := by
  have hall : t.Throughout fun n => n.allRecords p = true :=
    .of_inside (fun _ h _ => allRecordsOf_mem h) (fun _ h => (allRecords_record.mp h).2) h
  exact (allRecords_record.mp (hall path _ hr)).1

end ComponentTree
