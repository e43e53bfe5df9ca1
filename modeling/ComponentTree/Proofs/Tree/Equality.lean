import ComponentTree.Proofs.Json.Distinct
import ComponentTree.Proofs.Tree.Renaming

/-!
When copies are equal to what they were made of.

A tree is given by its identities and by what it is without them (`Node.eq_of_anonymous`), and
equality does not look at identities on either side. The one thing that is not equal to itself is
what is not a number. Main statement (`same_copy_iff`): a tree is equal to a copy of itself,
whatever the identities of the copy are, exactly if nothing in it, in content or mixins at any
depth, is not a number.
-/

namespace ComponentTree

/-! ### What stands in a tree -/

/-- The node is the tree or stands in it: as an item of a list, or in the content or the mixins of a
record. -/
inductive Node.Within (n : Node) : Node → Prop
  | self : Within n n
  | item {items : List Node} {x : Node} (hx : x ∈ items) (h : Within n x) : Within n (.list items)
  | content {r : Record} (h : Within n r.content) : Within n (.record r)
  | mixin {r : Record} {x : Node} (hx : x ∈ r.mixins) (h : Within n x) : Within n (.record r)

namespace Node

variable {n : Node}

theorem within_list {items : List Node} :
    n.Within (.list items) ↔ n = .list items ∨ ∃ x ∈ items, n.Within x := by
  constructor
  · rintro (_ | ⟨hx, h⟩)
    · exact Or.inl rfl
    · exact Or.inr ⟨_, hx, h⟩
  · rintro (rfl | ⟨x, hx, h⟩)
    · exact .self
    · exact .item hx h

theorem within_record {r : Record} : n.Within (.record r) ↔
    n = .record r ∨ n.Within r.content ∨ ∃ x ∈ r.mixins, n.Within x := by
  constructor
  · rintro (_ | _ | h | ⟨hx, h⟩)
    · exact Or.inl rfl
    · exact Or.inr (Or.inl h)
    · exact Or.inr (Or.inr ⟨_, hx, h⟩)
  · rintro (rfl | h | ⟨x, hx, h⟩)
    · exact .self
    · exact .content h
    · exact .mixin hx h

theorem within_absent : n.Within .absent ↔ n = .absent :=
  ⟨by rintro ⟨⟩; rfl, by rintro rfl; exact .self⟩

theorem within_bool {b : Bool} : n.Within (.bool b) ↔ n = .bool b :=
  ⟨by rintro ⟨⟩; rfl, by rintro rfl; exact .self⟩

theorem within_number {x : Binary64} : n.Within (.number x) ↔ n = .number x :=
  ⟨by rintro ⟨⟩; rfl, by rintro rfl; exact .self⟩

theorem within_text {s : String} : n.Within (.text s) ↔ n = .text s :=
  ⟨by rintro ⟨⟩; rfl, by rintro rfl; exact .self⟩

theorem mem_keysAll {key : Key} {ns : List Node} : key ∈ keysAll ns ↔ ∃ n ∈ ns, key ∈ n.keys := by
  induction ns with
  | nil => simp [keysAll]
  | cons n ns ih => simp [keysAll, ih]

theorem mem_keys_record {key : Key} {r : Record} :
    key ∈ (record r).keys ↔ key = r.key ∨ key ∈ r.content.keys ∨ key ∈ keysAll r.mixins := by
  cases r
  simp [keys, Record.keys]

/-- What stands in a tree has only identities that are in the tree. -/
theorem Within.keys_subset {t : Node} (h : n.Within t) : n.keys ⊆ t.keys := by
  induction h with
  | self => exact List.Subset.refl _
  | item hx _ ih => exact fun key hkey => mem_keysAll.mpr ⟨_, hx, ih hkey⟩
  | content _ ih => exact fun key hkey => mem_keys_record.mpr (Or.inr (Or.inl (ih hkey)))
  | mixin hx _ ih =>
    exact fun key hkey => mem_keys_record.mpr (Or.inr (Or.inr (mem_keysAll.mpr ⟨_, hx, ih hkey⟩)))

end Node

/-! ### Identities and what is left without them -/

mutual

theorem Node.eq_of_renamed : ∀ {n n' : Node}, n.Renamed (· = ·) n' → n = n'
  | .absent, _, h | .bool _, _, h | .number _, _, h | .text _, _, h => by
    rcases h.cases with ⟨_, _, heq, -⟩ | ⟨_, _, heq, -⟩ | ⟨heq, -⟩
    · cases heq
    · cases heq
    · exact heq
  | .list items, _, h => by
    rcases h.cases with ⟨_, items', heq, rfl, hitems⟩ | ⟨_, _, heq, -⟩ | ⟨heq, -⟩
    · obtain rfl := Node.list.inj heq
      exact congrArg Node.list (Node.eqAll_of_renamed hitems)
    · cases heq
    · exact heq
  | .record r, _, h => by
    rcases h.cases with ⟨_, _, heq, -⟩ | ⟨_, r', heq, rfl, hr⟩ | ⟨heq, -⟩
    · cases heq
    · obtain rfl := Node.record.inj heq
      exact congrArg Node.record (Record.eq_of_renamed hr)
    · exact heq

theorem Node.eqAll_of_renamed : ∀ {ns ns' : List Node},
    List.Forall₂ (Node.Renamed (· = ·)) ns ns' → ns = ns'
  | [], _, h => (List.forall₂_nil_left_iff.mp h).symm
  | n :: ns, _, h => by
    obtain ⟨n', ns', hn, hns, rfl⟩ := List.forall₂_cons_left_iff.mp h
    rw [Node.eq_of_renamed hn, Node.eqAll_of_renamed hns]

theorem Record.eq_of_renamed : ∀ {r r' : Record}, r.Renamed (· = ·) r' → r = r'
  | ⟨key, component, part, variant, params, content, mixins, rendering⟩, r', h => by
    have hcontent := Node.eq_of_renamed h.content
    have hmixins := Node.eqAll_of_renamed h.mixins
    have hkey := h.key
    rw [h.fields]
    dsimp only at hcontent hmixins hkey ⊢
    rw [hcontent, hmixins, hkey]

end

/-- A tree is given by what it is without identities and by its identities. -/
theorem Node.eq_of_anonymous {n n' : Node} (h : n.anonymous = n'.anonymous)
    (hkeys : n.keys = n'.keys) : n = n' :=
  Node.eq_of_renamed ⟨h, by rw [hkeys]; exact List.forall₂_same.mpr fun _ _ => rfl⟩

theorem Node.anonymous_mapKeys (f : Key → Key) (n : Node) : (n.mapKeys f).anonymous = n.anonymous :=
  n.mapKeys_mapKeys f _

theorem Node.mapKeys_congr {f g : Key → Key} {n : Node} (h : ∀ key ∈ n.keys, f key = g key) :
    n.mapKeys f = n.mapKeys g := by
  refine Node.eq_of_anonymous ?_ ?_
  · rw [anonymous_mapKeys, anonymous_mapKeys]
  · rw [keys_mapKeys, keys_mapKeys]
    exact List.map_congr_left h

mutual

/-- Equality of nodes does not look at the identities of the second one. -/
theorem Node.same_mapKeys_right (f : Key → Key) : ∀ n m : Node, n.same (m.mapKeys f) = n.same m
  | .absent, m | .bool _, m | .number _, m | .text _, m => by cases m <;> rfl
  | .list items, m => by
    cases m with
    | list others => exact Node.sameAll_mapKeysAll_right f items others
    | _ => rfl
  | .record r, m => by
    cases m with
    | record other => exact Record.same_mapKeys_right f r other
    | _ => rfl

theorem Node.sameAll_mapKeysAll_right (f : Key → Key) : ∀ ns ms : List Node,
    Node.sameAll ns (Node.mapKeysAll f ms) = Node.sameAll ns ms
  | [], [] | [], _ :: _ | _ :: _, [] => rfl
  | n :: ns, m :: ms => by
    rw [Node.mapKeysAll, Node.sameAll, Node.sameAll, Node.same_mapKeys_right f n m,
      Node.sameAll_mapKeysAll_right f ns ms]

theorem Record.same_mapKeys_right (f : Key → Key) : ∀ r other : Record,
    r.same (other.mapKeys f) = r.same other
  | ⟨key, component, part, variant, params, content, mixins, rendering⟩, other => by
    cases other
    rw [Record.mapKeys, Record.same, Record.same]
    dsimp only
    rw [Node.same_mapKeys_right f content, Node.sameAll_mapKeysAll_right f mixins]

end

/-! ### What is equal to itself -/

theorem Binary64.same_self_iff (x : Binary64) : x.same x = true ↔ x ≠ .nan := by
  cases x with
  | nan => simp [Binary64.same]
  | infinity negative => simp [Binary64.same]
  | finite y => simp [Binary64.same, y.same_self]

/-- No object in the parameters and the init options has a member name twice, as in all data that
was read. -/
structure Record.DataDistinct (r : Record) : Prop where
  params : ∀ e ∈ r.params.entries, e.2.isDistinct = true
  initOptions : ∀ options ∈ r.rendering.initOptions, ∀ e ∈ options.entries, e.2.isDistinct = true

/-- No object in the literal data of a tree has a member name twice. -/
def Node.DataDistinct (t : Node) : Prop := ∀ r, (Node.record r).Within t → r.DataDistinct

theorem Node.dataDistinct_list {items : List Node} :
    (Node.list items).DataDistinct ↔ ∀ x ∈ items, x.DataDistinct := by
  constructor
  · exact fun h x hx r hr => h r (.item hx hr)
  · intro h r hr
    rcases within_list.mp hr with heq | ⟨x, hx, hr⟩
    · cases heq
    · exact h x hx r hr

theorem Node.dataDistinct_record {r : Record} : (Node.record r).DataDistinct ↔
    r.DataDistinct ∧ r.content.DataDistinct ∧ ∀ x ∈ r.mixins, x.DataDistinct := by
  constructor
  · exact fun h =>
      ⟨h r .self, fun r' hr => h r' (.content hr), fun x hx r' hr => h r' (.mixin hx hr)⟩
  · rintro ⟨hr, hcontent, hmixins⟩ r' hr'
    rcases within_record.mp hr' with heq | hr' | ⟨x, hx, hr'⟩
    · rwa [Node.record.inj heq]
    · exact hcontent r' hr'
    · exact hmixins x hx r' hr'

theorem Node.dataDistinct_of_not_isInner {n : Node} (h : n.isInner = false) : n.DataDistinct := by
  intro r hr
  cases n with
  | list items => cases h
  | record r => cases h
  | _ => cases hr

/-- What is not a number stands somewhere in the tree. -/
def Node.HasNaN (t : Node) : Prop := (Node.number .nan).Within t

theorem Node.hasNaN_list {items : List Node} :
    (Node.list items).HasNaN ↔ ∃ x ∈ items, x.HasNaN := by simp [HasNaN, within_list]

theorem Node.hasNaN_record {r : Record} :
    (Node.record r).HasNaN ↔ r.content.HasNaN ∨ ∃ x ∈ r.mixins, x.HasNaN := by
  simp [HasNaN, within_record]

theorem Rendering.same_self {a : Rendering}
    (h : ∀ options ∈ a.initOptions, ∀ e ∈ options.entries, e.2.isDistinct = true) :
    a.same a = true := by
  have hattrs : OrderedMap.sameBy (· == ·) a.attrs a.attrs = true :=
    OrderedMap.sameBy_self fun _ _ => beq_self_eq_true _
  have hstate : OrderedMap.sameBy (· == ·) a.state a.state = true :=
    OrderedMap.sameBy_self fun _ _ => beq_self_eq_true _
  cases hoptions : a.initOptions with
  | none => simp [Rendering.same, hattrs, hstate, hoptions]
  | some options =>
    have hsame : OrderedMap.sameBy Literal.same options options = true :=
      OrderedMap.sameBy_self fun e he => Literal.same_self (h options hoptions e he)
    simp [Rendering.same, hattrs, hstate, hoptions, hsame]

mutual

theorem Node.same_self_iff : ∀ n : Node, n.DataDistinct → (n.same n = true ↔ ¬n.HasNaN)
  | .absent, _ => by simp [Node.same, Node.HasNaN, Node.within_absent]
  | .bool b, _ => by simp [Node.same, Node.HasNaN, Node.within_bool]
  | .number x, _ => by
    rw [Node.same, x.same_self_iff, Node.HasNaN, Node.within_number, Node.number.injEq, eq_comm]
  | .text s, _ => by simp [Node.same, Node.HasNaN, Node.within_text]
  | .list items, h => by
    rw [Node.same, Node.sameAll_self_iff items (Node.dataDistinct_list.mp h), Node.hasNaN_list]
    simp only [not_exists, not_and]
  | .record r, h => by
    obtain ⟨hr, hcontent, hmixins⟩ := Node.dataDistinct_record.mp h
    rw [Node.same, Record.same_self_iff r hr hcontent hmixins, Node.hasNaN_record]
    simp only [not_or, not_exists, not_and]

theorem Node.sameAll_self_iff : ∀ ns : List Node, (∀ n ∈ ns, n.DataDistinct) →
    (Node.sameAll ns ns = true ↔ ∀ n ∈ ns, ¬n.HasNaN)
  | [], _ => by simp [Node.sameAll]
  | n :: ns, h => by
    rw [List.forall_mem_cons] at h
    rw [Node.sameAll, Bool.and_eq_true, Node.same_self_iff n h.1, Node.sameAll_self_iff ns h.2,
      List.forall_mem_cons]

theorem Record.same_self_iff : ∀ r : Record, r.DataDistinct → r.content.DataDistinct →
    (∀ x ∈ r.mixins, x.DataDistinct) →
      (r.same r = true ↔ ¬r.content.HasNaN ∧ ∀ x ∈ r.mixins, ¬x.HasNaN)
  | ⟨key, component, part, variant, params, content, mixins, rendering⟩, h, hcontent, hmixins => by
    have hparams : OrderedMap.sameBy Literal.same params params = true :=
      OrderedMap.sameBy_self fun e he => Literal.same_self (h.params e he)
    have hrendering : rendering.same rendering = true := Rendering.same_self h.initOptions
    simp only [Record.same, hparams, hrendering, beq_self_eq_true, Bool.true_and, Bool.and_true,
      Bool.and_eq_true]
    rw [Node.same_self_iff content hcontent, Node.sameAll_self_iff mixins hmixins]

end

/-- A tree and a copy of it are equal, from either side, exactly if nothing in the tree is not a
number. -/
theorem Node.same_copy_iff {n copy : Node} (hdata : n.DataDistinct)
    (h : copy.anonymous = n.anonymous) :
    (n.same copy = true ↔ ¬n.HasNaN) ∧ (copy.same n = true ↔ ¬n.HasNaN) := by
  have hcopy : n.same copy = n.same n := by
    rw [← n.same_mapKeys_right (fun _ => 0) copy, ← n.same_mapKeys_right (fun _ => 0) n]
    exact congrArg n.same h
  rw [hcopy, Node.same_of_anonymous h n]
  exact ⟨n.same_self_iff hdata, n.same_self_iff hdata⟩

end ComponentTree
