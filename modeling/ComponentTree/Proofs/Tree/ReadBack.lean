import ComponentTree.Proofs.Json.Repeated
import ComponentTree.Proofs.Tree.Identity
import ComponentTree.Proofs.Tree.Literal
import ComponentTree.Proofs.Tree.Throughout

/-!
Trees whose literal data repeats member names.

If a field of a record is set after the record was read, it can get the name of a parameter. Then
the literal data of the record has this name twice, and the one that comes last is read. A reader
makes at most one field or parameter of a member (`length_ofMembers_le`), so such a record is not
read back (`nodup_members_of_readBack`). Main statement: a tree that is like one that was read, but
for components and variants, is read back exactly if no parameter has the name of a field that is
set, and exactly then no member name is repeated in its literal data (`readBack_iff`).
-/

namespace ComponentTree

/-- The tree that is read back from the literal data of a tree. -/
def Node.readBack (n : Node) : Node := .ofLiteral n.toLiteral.asRead

/-- No parameter has the name of a field that is set. -/
def Record.IsUnambiguous (r : Record) : Prop := ∀ name ∈ r.params.keys, r.isUnset name = true

/-- In no record to which expansion can go a parameter has the name of a field that is set. -/
def Node.IsUnambiguous (t : Node) : Prop :=
  ∀ path r, t.at? path = some (.record r) → r.IsUnambiguous

/-! ### How many members a record has -/

namespace Record

variable {r r' : Record}

theorem length_members (r : Record) : r.members.length =
    r.component.toList.length + r.part.toList.length + r.variant.toList.length + r.params.size +
      (if r.content.isAbsent then 0 else 1) + (if r.mixins.isEmpty then 0 else 1) := by
  have htext : ∀ name text, (textMember name text).length = text.toList.length := by
    rintro name (_ | s) <;> rfl
  rw [members_eq]
  simp only [List.length_append, htext, OrderedMap.size]
  congr 1
  · congr 1
    split <;> rfl
  · split <;> rfl

/-- A member that is written makes at most one more. -/
theorem length_members_setMember_le (r : Record) (name : String) (v : Literal) :
    (r.setMember name v (.ofLiteral v)).members.length ≤ r.members.length + 1 := by
  have text : ∀ s : String, (some s).toList.length = 1 := fun _ => rfl
  have atMost : ∀ b : Bool, (if b then 0 else 1) ≤ 1 := by decide
  cases h : v.isField name with
  | false =>
    have hsize := r.params.size_insert_le name v
    rw [setMember_of_not_isField h, length_members, length_members]
    dsimp only
    omega
  | true =>
    rcases Literal.isField_cases h with rfl | ⟨rfl | rfl | rfl, s, rfl⟩ |
      ⟨rfl, ⟨items, rfl⟩ | ⟨members, rfl⟩⟩
    · change (Record.members { r with content := .ofLiteral v }).length ≤ _
      have hone := atMost (Node.ofLiteral v).isAbsent
      rw [length_members, length_members]
      dsimp only
      omega
    · change (Record.members { r with component := some s }).length ≤ _
      rw [length_members, length_members, text]
      dsimp only
      omega
    · change (Record.members { r with part := some s }).length ≤ _
      rw [length_members, length_members, text]
      dsimp only
      omega
    · change (Record.members { r with variant := some s }).length ≤ _
      rw [length_members, length_members, text]
      dsimp only
      omega
    · change (Record.members { r with mixins := Node.ofLiterals items }).length ≤ _
      have hone := atMost (Node.ofLiterals items).isEmpty
      rw [length_members, length_members]
      dsimp only
      omega
    · change (Record.members
        { r with mixins := r.mixins ++ [.ofLiteral (.object members)] }).length ≤ _
      have hone := atMost (r.mixins ++ [Node.ofLiteral (.object members)]).isEmpty
      rw [length_members, length_members]
      dsimp only
      omega

/-- A record that is read has at most as many members as there were. -/
theorem length_ofMembers_le : ∀ (members : List (String × Literal)) (r : Record),
    (ofMembers r members).members.length ≤ r.members.length + members.length
  | [], r => Nat.le_refl _
  | (name, v) :: rest, r => by
    have hrest := length_ofMembers_le rest (r.setMember name v (.ofLiteral v))
    have hset := r.length_members_setMember_le name v
    rw [ofMembers, List.length_cons]
    omega

end Record

theorem Node.isAbsent_of_same {n m : Node} (h : n.same m = true) : n.isAbsent = m.isAbsent := by
  cases n <;> cases m <;> first
    | rfl
    | cases h
    | rw [eq_of_beq h]

theorem Node.isEmpty_of_sameAll {ns ms : List Node} (h : sameAll ns ms = true) :
    ns.isEmpty = ms.isEmpty := by
  cases ns <;> cases ms <;> first
    | rfl
    | cases h

theorem Record.same_iff {r r' : Record} : r.same r' = true ↔
    r.component = r'.component ∧ r.part = r'.part ∧ r.variant = r'.variant ∧
      r.content.same r'.content = true ∧ Node.sameAll r.mixins r'.mixins = true ∧
      OrderedMap.sameBy Literal.same r.params r'.params = true ∧
      r.rendering.same r'.rendering = true := by
  cases r
  simp only [same, Bool.and_eq_true, beq_iff_eq, and_assoc]

/-- Equal records have equally many members. -/
theorem Record.length_members_of_same {r r' : Record} (h : r.same r' = true) :
    r.members.length = r'.members.length := by
  obtain ⟨hcomponent, hpart, hvariant, hcontent, hmixins, hparams, -⟩ := same_iff.mp h
  rw [OrderedMap.sameBy, Bool.and_eq_true, beq_iff_eq] at hparams
  rw [length_members, length_members, hcomponent, hpart, hvariant, hparams.1,
    Node.isAbsent_of_same hcontent, Node.isEmpty_of_sameAll hmixins]

/-! ### Trees that are read back -/

namespace Record

variable {r : Record}

/-- A field that is set stands in front of the parameters or, if it is the mixins, behind them. -/
theorem mem_names_of_not_isUnset {name : String} (h : r.isUnset name = false) :
    name ∈ (textMember "component" r.component ++ textMember "part" r.part ++
        textMember "variant" r.variant).map Prod.fst ∨
      name ∈ (if r.mixins.isEmpty then []
        else [("mixins", Json.array (Node.toLiterals r.mixins))]).map Prod.fst := by
  have text : ∀ {name : String} {t : Option String}, t.isNone = false →
      name ∈ (textMember name t).map Prod.fst := by
    rintro name (_ | s) ht
    · cases ht
    · exact List.mem_singleton_self _
  rw [List.map_append, List.map_append, List.mem_append, List.mem_append]
  unfold isUnset at h
  split at h
  · exact Or.inl (Or.inl (Or.inl (‹name = _› ▸ text h)))
  split at h
  · exact Or.inl (Or.inl (Or.inr (‹name = _› ▸ text h)))
  split at h
  · exact Or.inl (Or.inr (‹name = _› ▸ text h))
  split at h
  · rw [h]
    exact Or.inr (List.mem_singleton.mpr ‹_›)
  · cases h

/-- If no member name is repeated, no parameter has the name of a field that is set. -/
theorem isUnambiguous_of_nodup (h : (r.members.map Prod.fst).Nodup) : r.IsUnambiguous := by
  intro name hparam
  rw [← Bool.not_eq_false]
  intro hset
  rw [members_eq, List.append_assoc, List.map_append, List.map_append, List.nodup_append,
    List.nodup_append] at h
  obtain ⟨⟨-, -, hfront⟩, -, hback⟩ := h
  rcases mem_names_of_not_isUnset hset with hmem | hmem
  · exact hfront name hmem name hparam rfl
  · refine hback name (List.mem_append_right _ hparam) name ?_ rfl
    rw [List.map_append]
    exact List.mem_append_right _ hmem

/-- A record that is read back equal has no member name twice: otherwise the reader gets fewer
members than the record has. -/
theorem nodup_members_of_same
    (h : (ofMembers blank (OrderedMap.ofList (Json.asReadMembers r.members)).entries).same r =
      true) : (r.members.map Prod.fst).Nodup := by
  have hread := length_ofMembers_le
    (OrderedMap.ofList (Json.asReadMembers r.members)).entries blank
  have hlength : (Json.asReadMembers r.members).length = r.members.length := by
    rw [Json.asReadMembers_eq_map, List.length_map]
  have hblank : blank.members.length = 0 := rfl
  rw [length_members_of_same h] at hread
  rw [← Json.map_fst_asReadMembers]
  exact OrderedMap.nodup_of_length_ofList (by omega)

theorem ofMembers_content_of_notMem : ∀ (members : List (String × Literal)) (r : Record),
    "content" ∉ members.map Prod.fst → (ofMembers r members).content = r.content
  | [], _, _ => rfl
  | (name, v) :: rest, r, h => by
    rw [List.map_cons, List.mem_cons, not_or] at h
    rw [ofMembers, ofMembers_content_of_notMem rest _ h.2]
    cases hfield : v.isField name with
    | false => rw [setMember_of_not_isField hfield]
    | true =>
      rcases Literal.isField_cases hfield with rfl | ⟨rfl | rfl | rfl, s, rfl⟩ |
        ⟨rfl, ⟨items, rfl⟩ | ⟨members, rfl⟩⟩ <;> first
        | rfl
        | exact absurd rfl h.1

/-- The content that is read is what stands under that name, if no name is repeated. -/
theorem ofMembers_content_of_mem : ∀ (members : List (String × Literal)) (r : Record)
    {content : Literal}, (members.map Prod.fst).Nodup → ("content", content) ∈ members →
      (ofMembers r members).content = .ofLiteral content
  | (name, v) :: rest, r, content, hnodup, h => by
    rw [List.map_cons, List.nodup_cons] at hnodup
    rw [ofMembers]
    rcases List.mem_cons.mp h with heq | hmem
    · cases heq
      exact ofMembers_content_of_notMem rest _ hnodup.1
    · exact ofMembers_content_of_mem rest _ hnodup.2 hmem

theorem mem_members_content (h : r.content.isAbsent = false) :
    ("content", r.content.toLiteral) ∈ r.members := by
  rw [members_eq, h]
  exact List.mem_append_left _ (List.mem_append_right _ (List.mem_singleton_self _))

/-- If a record is read back equal, so is its content. -/
theorem readBack_content_same (h : (Node.record r).readBack.same (.record r) = true)
    (hcontent : r.content.isAbsent = false) : r.content.readBack.same r.content = true := by
  have hr : (ofMembers blank (OrderedMap.ofList (Json.asReadMembers r.members)).entries).same r =
      true := h
  have hnodup : ((Json.asReadMembers r.members).map Prod.fst).Nodup := by
    rw [Json.map_fst_asReadMembers]
    exact nodup_members_of_same hr
  have hmem : ("content", r.content.toLiteral.asRead) ∈ Json.asReadMembers r.members := by
    rw [Json.asReadMembers_eq_map]
    exact List.mem_map_of_mem (mem_members_content hcontent)
  rw [OrderedMap.entries_ofList hnodup] at hr
  have hsame := (same_iff.mp hr).2.2.2.1
  rwa [ofMembers_content_of_mem _ _ hnodup hmem] at hsame

end Record

namespace Node

theorem allDistinct_toLiterals_iff {ns : List Node} : Json.allDistinct (toLiterals ns) = true ↔
    ∀ n ∈ ns, n.toLiteral.isDistinct = true := by
  induction ns with
  | nil => simp [toLiterals, Json.allDistinct]
  | cons n ns ih =>
    rw [toLiterals, Json.allDistinct, Bool.and_eq_true, ih, List.forall_mem_cons]

theorem sameAll_readBack_iff {ns : List Node} :
    sameAll (ofLiterals (Json.asReadAll (toLiterals ns))) ns = true ↔
      ∀ n ∈ ns, n.readBack.same n = true := by
  induction ns with
  | nil => simp [toLiterals, Json.asReadAll, ofLiterals, sameAll]
  | cons n ns ih =>
    rw [toLiterals, Json.asReadAll, ofLiterals, sameAll, Bool.and_eq_true, ih,
      List.forall_mem_cons]
    rfl

theorem isDistinct_toLiteral_of_isAbsent {n : Node} (h : n.isAbsent = true) :
    n.toLiteral.isDistinct = true := by
  cases n <;> first
    | rfl
    | cases h

/-- If no member name is repeated in the literal data of a tree, no parameter has the name of a
field that is set. -/
theorem isUnambiguous_of_isDistinct {t : Node} (h : t.toLiteral.isDistinct = true) :
    t.IsUnambiguous := by
  have hall : t.Throughout fun n => n.toLiteral.isDistinct = true := by
    refine .of_inside (fun items h => allDistinct_toLiterals_iff.mp h) (fun r h => ?_) h
    cases hcontent : r.content.isAbsent with
    | true => exact isDistinct_toLiteral_of_isAbsent hcontent
    | false => exact (Json.isDistinct_object.mp h).2 _ (Record.mem_members_content hcontent)
  intro path r hr
  exact Record.isUnambiguous_of_nodup (Json.isDistinct_object.mp (hall path _ hr)).1

/-- If a tree is read back equal, no parameter has the name of a field that is set. -/
theorem isUnambiguous_of_readBack {t : Node} (h : t.readBack.same t = true) :
    t.IsUnambiguous := by
  -- content that is left out does not have to be read back as it is
  have hall : t.Throughout fun n => n.isAbsent = false → n.readBack.same n = true := by
    refine .of_inside (fun items h n hn _ => ?_) (fun r h => ?_) fun _ => h
    · exact sameAll_readBack_iff.mp (h rfl) n hn
    · exact Record.readBack_content_same (h rfl)
  exact fun path r hr =>
    Record.isUnambiguous_of_nodup (Record.nodup_members_of_same (hall path _ hr rfl))

end Node

/-! ### Trees about whose rendering nothing is written -/

theorem Node.unrenderedAll_eq_self_iff {ns : List Node} :
    Node.unrenderedAll ns = ns ↔ ∀ n ∈ ns, n.unrendered = n := by
  induction ns with
  | nil => simp [Node.unrenderedAll]
  | cons n ns ih => rw [Node.unrenderedAll, List.cons.injEq, ih, List.forall_mem_cons]

namespace Record

variable {r : Record}

theorem unrendered_eq_self_iff : r.unrendered = r ↔ r.rendering = {} ∧
    r.content.unrendered = r.content ∧ ∀ m ∈ r.mixins, m.unrendered = m := by
  cases r
  rw [unrendered, Record.mk.injEq, Node.unrenderedAll_eq_self_iff]
  constructor
  · rintro ⟨-, -, -, -, -, hcontent, hmixins, hrendering⟩
    exact ⟨hrendering.symm, hcontent, hmixins⟩
  · rintro ⟨hrendering, hcontent, hmixins⟩
    exact ⟨rfl, rfl, rfl, rfl, rfl, hcontent, hmixins, hrendering.symm⟩

theorem rendering_setMember (name : String) (v : Literal) :
    (r.setMember name v (.ofLiteral v)).rendering = r.rendering := by
  cases h : v.isField name with
  | false => rw [setMember_of_not_isField h]
  | true =>
    rcases Literal.isField_cases h with rfl | ⟨rfl | rfl | rfl, s, rfl⟩ |
      ⟨rfl, ⟨items, rfl⟩ | ⟨members, rfl⟩⟩ <;> rfl

theorem unrendered_setMember (h : r.unrendered = r) (name : String) {v : Literal}
    (hv : (Node.ofLiteral v).unrendered = .ofLiteral v) :
    (r.setMember name v (.ofLiteral v)).unrendered = r.setMember name v (.ofLiteral v) := by
  obtain ⟨hrendering, hcontent, hmixins⟩ := unrendered_eq_self_iff.mp h
  refine unrendered_eq_self_iff.mpr ⟨(rendering_setMember name v).trans hrendering, ?_⟩
  exact inside_setMember (P := fun n => n.unrendered = n)
    (fun items hitems => Node.unrenderedAll_eq_self_iff.mp (Node.list.inj hitems)) hv hcontent
    hmixins

end Record

mutual

theorem Node.unrendered_ofLiteral : ∀ v : Literal, (Node.ofLiteral v).unrendered = .ofLiteral v
  | .null | .bool false | .bool true | .number _ | .string _ => rfl
  | .array items => congrArg Node.list (Node.unrenderedAll_ofLiterals items)
  | .object members => congrArg Node.record (Record.unrendered_ofMembers members .blank rfl)

theorem Node.unrenderedAll_ofLiterals : ∀ vs : List Literal,
    Node.unrenderedAll (Node.ofLiterals vs) = Node.ofLiterals vs
  | [] => rfl
  | v :: vs => by
    rw [Node.ofLiterals, Node.unrenderedAll, Node.unrendered_ofLiteral v,
      Node.unrenderedAll_ofLiterals vs]

theorem Record.unrendered_ofMembers : ∀ (members : List (String × Literal)) (r : Record),
    r.unrendered = r → (Record.ofMembers r members).unrendered = Record.ofMembers r members
  | [], _, h => h
  | (name, v) :: rest, r, h => by
    rw [Record.ofMembers]
    exact Record.unrendered_ofMembers rest _
      (Record.unrendered_setMember h name (Node.unrendered_ofLiteral v))

end

mutual

theorem Node.unrendered_of_mapKeys (f : Key → Key) :
    ∀ n : Node, (n.mapKeys f).unrendered = n.mapKeys f → n.unrendered = n
  | .absent, _ | .bool _, _ | .number _, _ | .text _, _ => rfl
  | .list items, h =>
    congrArg Node.list (Node.unrenderedAll_of_mapKeysAll f items (Node.list.inj h))
  | .record r, h => congrArg Node.record (Record.unrendered_of_mapKeys f r (Node.record.inj h))

theorem Node.unrenderedAll_of_mapKeysAll (f : Key → Key) : ∀ ns : List Node,
    Node.unrenderedAll (Node.mapKeysAll f ns) = Node.mapKeysAll f ns →
      Node.unrenderedAll ns = ns
  | [], _ => rfl
  | n :: ns, h => by
    obtain ⟨hn, hns⟩ := List.cons.inj h
    rw [Node.unrenderedAll, Node.unrendered_of_mapKeys f n hn,
      Node.unrenderedAll_of_mapKeysAll f ns hns]

theorem Record.unrendered_of_mapKeys (f : Key → Key) :
    ∀ r : Record, (r.mapKeys f).unrendered = r.mapKeys f → r.unrendered = r
  | ⟨key, component, part, variant, params, content, mixins, rendering⟩, h => by
    rw [Record.mapKeys, Record.unrendered, Record.mk.injEq] at h
    obtain ⟨-, -, -, -, -, hcontent, hmixins, rfl⟩ := h
    rw [Record.unrendered, Node.unrendered_of_mapKeys f content hcontent,
      Node.unrenderedAll_of_mapKeysAll f mixins hmixins]

end

/-! ### Trees that are as in data but for components and variants -/

/-- The record could have been read from literal data, but for its key, its component, its variant
and its content. -/
structure Record.OfData (r : Record) : Prop where
  params : ∀ e ∈ r.params.entries, e.2.isField e.1 = false ∧ e.2.isDistinct = true
  beside : ∀ name ∈ r.params.keys, name ≠ "component" → name ≠ "variant" → r.isUnset name = true
  mixins : Node.allCanonical r.mixins = true
  bare : ∀ m ∈ r.mixins, m.unrendered = m
  rendering : r.rendering = {}

/-- The node could have been read from literal data, but for what is inside it and, if it is a
record, for its key, its component and its variant. -/
def Node.OfData : Node → Prop
  | .list _ => True
  | .record r => r.OfData
  | n => n.isCanonical = true

namespace Node

theorem ofSurface_ofData : OfSurface OfData where
  list _ := trivial
  content _ _ h := ⟨h.params, h.beside, h.mixins, h.bare, h.rendering⟩

theorem isCanonical_of_isUnambiguous {t : Node} (h : t.Throughout OfData) (hu : t.IsUnambiguous) :
    t.isCanonical = true := by
  have hsurface : OfSurface fun n => n.OfData ∧ OfRecord Record.IsUnambiguous n :=
    ofSurface_ofData.and (.ofRecord fun _ _ h => h)
  refine Throughout.induct hsurface (fun n hn h => ?_) (fun items h => allCanonical_iff.mpr h)
    (fun r h hcontent => ?_) t fun path n hn => ⟨h path n hn, throughout_ofRecord.mpr hu path n hn⟩
  · cases n <;> first
      | exact h.1
      | cases hn
  · obtain ⟨hdata, hr⟩ := h
    refine Record.isCanonical_iff.mpr
      ⟨Record.paramsFit_iff.mpr fun e he => ?_, hcontent, hdata.mixins⟩
    obtain ⟨hfield, hdistinct⟩ := hdata.params e he
    exact ⟨hfield, ofRecord_record.mp hr e.1 (List.mem_map_of_mem he), hdistinct⟩

/-- Nothing was written about rendering. -/
theorem unrendered_of_ofData {t : Node} (h : t.Throughout OfData) : t.unrendered = t := by
  refine Throughout.induct ofSurface_ofData (fun n hn h => ?_) (fun items ih => ?_)
    (fun r hr ih => ?_) t h
  · cases n <;> first
      | rfl
      | cases hn
  · exact congrArg list (unrenderedAll_eq_self_iff.mpr ih)
  · exact congrArg record (Record.unrendered_eq_self_iff.mpr ⟨hr.rendering, ih, hr.bare⟩)

/-- A tree that is as in data but for components and variants is read back equal exactly if no
parameter has the name of a field that is set, and exactly then no member name is repeated in its
literal data. -/
theorem readBack_iff {t : Node} (h : t.Throughout OfData) :
    (t.readBack.same t = true ↔ t.IsUnambiguous) ∧
      (t.toLiteral.isDistinct = true ↔ t.IsUnambiguous) := by
  have canonical := isCanonical_of_isUnambiguous h
  refine ⟨⟨isUnambiguous_of_readBack, fun hu => ?_⟩, isUnambiguous_of_isDistinct,
    fun hu => isDistinct_toLiteral t (canonical hu)⟩
  have hsame := same_ofLiteral_toLiteral t (canonical hu)
  rw [readBack, Json.asRead_of_isDistinct _ (isDistinct_toLiteral t (canonical hu))]
  rwa [unrendered_of_ofData h] at hsame

end Node

/-! ### Trees that were read -/

mutual

/-- Whether a tree can be read back does not depend on identities. -/
theorem Node.isCanonical_mapKeys (f : Key → Key) :
    ∀ n : Node, (n.mapKeys f).isCanonical = n.isCanonical
  | .absent | .bool _ | .number _ | .text _ => rfl
  | .list items => Node.allCanonical_mapKeysAll f items
  | .record r => Record.isCanonical_mapKeys f r

theorem Node.allCanonical_mapKeysAll (f : Key → Key) :
    ∀ ns : List Node, Node.allCanonical (Node.mapKeysAll f ns) = Node.allCanonical ns
  | [] => rfl
  | n :: ns => by
    rw [Node.mapKeysAll, Node.allCanonical, Node.allCanonical, Node.isCanonical_mapKeys f n,
      Node.allCanonical_mapKeysAll f ns]

theorem Record.isCanonical_mapKeys (f : Key → Key) :
    ∀ r : Record, (r.mapKeys f).isCanonical = r.isCanonical
  | ⟨key, component, part, variant, params, content, mixins, rendering⟩ => by
    have hempty : (Node.mapKeysAll f mixins).isEmpty = mixins.isEmpty := by cases mixins <;> rfl
    have hfit : Record.paramsFit ⟨f key, component, part, variant, params, content.mapKeys f,
        Node.mapKeysAll f mixins, rendering⟩ =
          Record.paramsFit ⟨key, component, part, variant, params, content, mixins, rendering⟩ := by
      simp only [Record.paramsFit, Record.isUnset, hempty]
    rw [Record.mapKeys, Record.isCanonical, Record.isCanonical, hfit,
      Node.isCanonical_mapKeys f content, Node.allCanonical_mapKeysAll f mixins]

end

/-- A tree that was read is as in data throughout, whatever identities it was given. -/
theorem Node.throughout_ofData {v : Literal} (hv : v.isDistinct = true) {t : Node}
    (h : t.anonymous = .ofLiteral v) : t.Throughout OfData := by
  have hcanonical : t.isCanonical = true := by
    rw [← t.isCanonical_mapKeys fun _ => 0]
    exact (congrArg isCanonical h).trans (isCanonical_ofLiteral v hv)
  have hbare : t.unrendered = t := by
    refine unrendered_of_mapKeys (fun _ => 0) t ?_
    exact (congrArg unrendered h).trans ((unrendered_ofLiteral v).trans h.symm)
  have hall : t.Throughout fun n => n.isCanonical = true ∧ n.unrendered = n := by
    refine .of_inside (fun items h n hn => ?_) (fun r h => ?_) ⟨hcanonical, hbare⟩
    · exact ⟨allCanonical_iff.mp h.1 n hn, unrenderedAll_eq_self_iff.mp (list.inj h.2) n hn⟩
    · exact ⟨(Record.isCanonical_iff.mp h.1).2.1,
        (Record.unrendered_eq_self_iff.mp (record.inj h.2)).2.1⟩
  refine hall.imp fun n h => ?_
  cases n with
  | list => trivial
  | record r =>
    obtain ⟨hparams, -, hmixins⟩ := Record.isCanonical_iff.mp h.1
    obtain ⟨hrendering, -, hbare⟩ := Record.unrendered_eq_self_iff.mp (record.inj h.2)
    rw [Record.paramsFit_iff] at hparams
    refine ⟨fun e he => ⟨(hparams e he).1, (hparams e he).2.2⟩, fun name hname _ _ => ?_, hmixins,
      hbare, hrendering⟩
    obtain ⟨e, he, rfl⟩ := List.mem_map.mp hname
    exact (hparams e he).2.1
  | _ => exact h.1

end ComponentTree
