import ComponentTree.Proofs.Json.Distinct
import ComponentTree.Tree.Literal

/-!
Trees that are read back from their literal data.

A literal member is read as a field if its name and its type fit, and is a parameter otherwise. A
tree is canonical if reading its literal data goes that way back: its numbers are finite, `false` is
not among its nodes, and no parameter of a record could be read as a field or has the name of a
field that is set. Main statement (`ofLiteral_canonical_and_back`): what is read from literal data
is canonical, and a canonical tree is read back from its literal data but for what rules wrote.
-/

namespace ComponentTree

/-! ### Canonical trees -/

/-- Whether a literal member is read as a field of a record. -/
def Literal.isField (name : String) (v : Literal) : Bool :=
  if name = "content" then true
  else if name = "component" ∨ name = "part" ∨ name = "variant" then v.string?.isSome
  else if name = "mixins" then
    match v with
    | .array _ | .object _ => true
    | _ => false
  else false

/-- Whether no field with that name is set beside content. -/
def Record.isUnset (r : Record) (name : String) : Bool :=
  if name = "component" then r.component.isNone
  else if name = "part" then r.part.isNone
  else if name = "variant" then r.variant.isNone
  else if name = "mixins" then r.mixins.isEmpty
  else true

/-- Whether the parameters are read as parameters: none could be a field or has the name of a field
that is set. As in all data that was read, no object in their values has a member name twice. -/
def Record.paramsFit (r : Record) : Bool :=
  r.params.entries.all fun (name, v) => !v.isField name && r.isUnset name && v.isDistinct

mutual

/-- Whether the tree can be read back from its literal data. -/
def Node.isCanonical : Node → Bool
  | .absent | .text _ => true
  | .bool b => b
  | .number x => x.toFinite?.isSome
  | .list items => Node.allCanonical items
  | .record r => Record.isCanonical r

/-- Whether the trees can be read back from their literal data. -/
def Node.allCanonical : List Node → Bool
  | [] => true
  | n :: ns => Node.isCanonical n && Node.allCanonical ns

/-- Whether the record can be read back from its literal data. -/
def Record.isCanonical : Record → Bool
  | r@⟨_, _, _, _, _, content, mixins, _⟩ =>
    r.paramsFit && Node.isCanonical content && Node.allCanonical mixins

end

mutual

/-- The tree without anything that rules wrote about rendering. -/
def Node.unrendered : Node → Node
  | .absent => .absent
  | .bool b => .bool b
  | .number x => .number x
  | .text s => .text s
  | .list items => .list (Node.unrenderedAll items)
  | .record r => .record (Record.unrendered r)

/-- The nodes without anything that rules wrote about rendering. -/
def Node.unrenderedAll : List Node → List Node
  | [] => []
  | n :: ns => Node.unrendered n :: Node.unrenderedAll ns

/-- The record without anything that rules wrote about rendering, in content and mixins either. -/
def Record.unrendered : Record → Record
  | ⟨key, component, part, variant, params, content, mixins, _⟩ =>
    ⟨key, component, part, variant, params, Node.unrendered content, Node.unrenderedAll mixins, {}⟩

end

theorem Node.allCanonical_iff {ns : List Node} :
    allCanonical ns = true ↔ ∀ n ∈ ns, n.isCanonical = true := by
  induction ns with
  | nil => simp [allCanonical]
  | cons n ns ih => rw [allCanonical, Bool.and_eq_true, ih, List.forall_mem_cons]

theorem Record.isCanonical_iff {r : Record} : r.isCanonical = true ↔
    r.paramsFit = true ∧ r.content.isCanonical = true ∧ Node.allCanonical r.mixins = true := by
  cases r
  rw [isCanonical, Bool.and_eq_true, Bool.and_eq_true, and_assoc]

theorem Record.paramsFit_iff {r : Record} : r.paramsFit = true ↔
    ∀ e ∈ r.params.entries, e.2.isField e.1 = false ∧ r.isUnset e.1 = true ∧
      e.2.isDistinct = true := by
  rw [paramsFit, List.all_eq_true]
  refine forall_congr' fun e => forall_congr' fun _ => ?_
  rw [Bool.and_eq_true, Bool.and_eq_true, Bool.not_eq_true', and_assoc]

/-! ### Members that are written into a record -/

theorem Literal.isField_cases {name : String} {v : Literal} (h : v.isField name = true) :
    name = "content" ∨
    ((name = "component" ∨ name = "part" ∨ name = "variant") ∧ ∃ s, v = .string s) ∨
    name = "mixins" ∧ ((∃ items, v = .array items) ∨ ∃ members, v = .object members) := by
  unfold isField at h
  split at h
  · exact Or.inl ‹_›
  · split at h
    · cases v <;> cases h
      exact Or.inr (Or.inl ⟨‹_›, _, rfl⟩)
    · split at h
      · cases v <;> cases h
        · exact Or.inr (Or.inr ⟨‹_›, Or.inl ⟨_, rfl⟩⟩)
        · exact Or.inr (Or.inr ⟨‹_›, Or.inr ⟨_, rfl⟩⟩)
      · cases h

namespace Record

variable {r : Record} {name : String} {v : Literal}

/-- A member that is no field becomes a parameter. -/
theorem setMember_of_not_isField (h : v.isField name = false) :
    r.setMember name v (.ofLiteral v) = { r with params := r.params.insert name v } := by
  unfold Literal.isField at h
  unfold setMember
  by_cases hcontent : name = "content"
  · rw [if_pos hcontent] at h
    cases h
  rw [if_neg hcontent] at h ⊢
  by_cases htext : name = "component" ∨ name = "part" ∨ name = "variant"
  · rw [if_pos htext] at h
    rcases htext with rfl | rfl | rfl <;> cases v <;> first | rfl | cases h
  rw [if_neg htext] at h
  rw [not_or, not_or] at htext
  rw [if_neg htext.1, if_neg htext.2.1, if_neg htext.2.2]
  by_cases hmixins : name = "mixins"
  · rw [if_pos hmixins] at h ⊢
    cases v with
    | array | object => cases h
    | bool b => cases b <;> rfl
    | _ => rfl
  · rw [if_neg hmixins]

/-- A member that is a field writes no parameter. -/
theorem setMember_params_of_isField (h : v.isField name = true) :
    (r.setMember name v (.ofLiteral v)).params = r.params := by
  rcases Literal.isField_cases h with rfl | ⟨rfl | rfl | rfl, s, rfl⟩ |
    ⟨rfl, ⟨items, rfl⟩ | ⟨members, rfl⟩⟩ <;> rfl

/-- A member sets no field with another name. -/
theorem isUnset_setMember {other : String} (hother : other ≠ name) :
    (r.setMember name v (.ofLiteral v)).isUnset other = r.isUnset other := by
  cases h : v.isField name with
  | false => rw [setMember_of_not_isField h]; rfl
  | true =>
    rcases Literal.isField_cases h with rfl | ⟨rfl | rfl | rfl, s, rfl⟩ |
      ⟨rfl, ⟨items, rfl⟩ | ⟨members, rfl⟩⟩
    · rfl
    all_goals
      simp only [isUnset, if_neg hother]
      rfl

/-- What holds of the content and of the mixins still holds if it holds of what the member stands
for. -/
theorem inside_setMember {P : Node → Prop} (hlist : ∀ items, P (.list items) → ∀ n ∈ items, P n)
    (hv : P (.ofLiteral v)) (hcontent : P r.content) (hmixins : ∀ m ∈ r.mixins, P m) :
    P (r.setMember name v (.ofLiteral v)).content ∧
      ∀ m ∈ (r.setMember name v (.ofLiteral v)).mixins, P m := by
  cases h : v.isField name with
  | false => rw [setMember_of_not_isField h]; exact ⟨hcontent, hmixins⟩
  | true =>
    rcases Literal.isField_cases h with rfl | ⟨rfl | rfl | rfl, s, rfl⟩ |
      ⟨rfl, ⟨items, rfl⟩ | ⟨members, rfl⟩⟩
    · exact ⟨hv, hmixins⟩
    · exact ⟨hcontent, hmixins⟩
    · exact ⟨hcontent, hmixins⟩
    · exact ⟨hcontent, hmixins⟩
    · exact ⟨hcontent, hlist _ hv⟩
    · refine ⟨hcontent, ?_⟩
      change ∀ m ∈ r.mixins ++ [.ofLiteral (.object members)], P m
      rw [List.forall_mem_append, List.forall_mem_singleton]
      exact ⟨hmixins, hv⟩

/-- No member with that name has been written yet, or at most content. -/
structure Untouched (r : Record) (name : String) : Prop where
  param : name ∉ r.params.keys
  field : r.isUnset name = true

theorem Untouched.setMember {other : String} (h : r.Untouched other) (hother : other ≠ name) :
    (r.setMember name v (.ofLiteral v)).Untouched other := by
  refine ⟨?_, (isUnset_setMember hother).trans h.field⟩
  cases hv : v.isField name with
  | true => rw [setMember_params_of_isField hv]; exact h.param
  | false =>
    rw [setMember_of_not_isField hv, OrderedMap.keys_insert]
    split
    · exact h.param
    · rw [List.mem_append, List.mem_singleton]
      exact not_or.mpr ⟨h.param, hother⟩

theorem untouched_blank (name : String) : blank.Untouched name := by
  refine ⟨List.not_mem_nil, ?_⟩
  unfold isUnset
  repeat' split
  all_goals rfl

/-- A record stays canonical when a member is written whose name has not been written yet. -/
theorem isCanonical_setMember (h : r.isCanonical = true) (hname : r.Untouched name)
    (hdistinct : v.isDistinct = true) (hv : (Node.ofLiteral v).isCanonical = true) :
    (r.setMember name v (.ofLiteral v)).isCanonical = true := by
  obtain ⟨hparams, hcontent, hmixins⟩ := isCanonical_iff.mp h
  rw [isCanonical_iff, Node.allCanonical_iff]
  refine ⟨?_, inside_setMember (fun _ => Node.allCanonical_iff.mp) hv hcontent
    (Node.allCanonical_iff.mp hmixins)⟩
  rw [paramsFit_iff] at hparams ⊢
  -- what was a parameter before has another name, and stays one
  have before : ∀ e ∈ r.params.entries, e.2.isField e.1 = false ∧
      (r.setMember name v (.ofLiteral v)).isUnset e.1 = true ∧ e.2.isDistinct = true := by
    intro e he
    obtain ⟨hfield, hunset, hd⟩ := hparams e he
    have hne : e.1 ≠ name := fun heq => hname.param (heq ▸ List.mem_map_of_mem he)
    exact ⟨hfield, (isUnset_setMember hne).trans hunset, hd⟩
  cases hfield : v.isField name with
  | true => rw [setMember_params_of_isField hfield]; exact before
  | false =>
    have hentries : (r.setMember name v (.ofLiteral v)).params.entries =
        r.params.entries ++ [(name, v)] := by
      rw [setMember_of_not_isField hfield]
      exact OrderedMap.place_of_notMem v hname.param
    rw [hentries, List.forall_mem_append, List.forall_mem_singleton]
    refine ⟨before, hfield, ?_, hdistinct⟩
    rw [setMember_of_not_isField hfield]
    exact hname.field

end Record

/-! ### What is read is canonical -/

theorem Json.Number.toBinary64_finite (n : Json.Number) : ∃ x, n.toBinary64 = .finite x := by
  cases n with
  | integer n =>
    have hrange := n.inRange
    exact Binary64.ofInt_finite (by omega)
  | float x => exact ⟨x, rfl⟩

mutual

theorem Node.isCanonical_ofLiteral : ∀ v : Literal, v.isDistinct = true →
    (Node.ofLiteral v).isCanonical = true
  | .null, _ | .bool false, _ | .bool true, _ | .string _, _ => rfl
  | .number n, _ => by
    obtain ⟨x, hx⟩ := n.toBinary64_finite
    rw [Node.ofLiteral, hx]
    rfl
  | .array items, h => Node.allCanonical_ofLiterals items h
  | .object members, h => by
    rw [Json.isDistinct, Bool.and_eq_true, decide_eq_true_iff] at h
    rw [Node.ofLiteral, Node.isCanonical]
    exact Record.isCanonical_ofMembers members .blank h.2 h.1 rfl
      fun name _ => Record.untouched_blank name

theorem Node.allCanonical_ofLiterals : ∀ vs : List Literal, Json.allDistinct vs = true →
    Node.allCanonical (Node.ofLiterals vs) = true
  | [], _ => rfl
  | v :: vs, h => by
    rw [Json.allDistinct, Bool.and_eq_true] at h
    rw [Node.ofLiterals, Node.allCanonical, Node.isCanonical_ofLiteral v h.1,
      Node.allCanonical_ofLiterals vs h.2, Bool.and_self]

theorem Record.isCanonical_ofMembers : ∀ (members : List (String × Literal)) (r : Record),
    Json.membersDistinct members = true → (members.map Prod.fst).Nodup → r.isCanonical = true →
      (∀ name ∈ members.map Prod.fst, r.Untouched name) →
        (Record.ofMembers r members).isCanonical = true
  | [], _, _, _, h, _ => h
  | (name, v) :: rest, r, hd, hnames, h, huntouched => by
    rw [Json.membersDistinct, Bool.and_eq_true] at hd
    rw [List.map_cons, List.nodup_cons] at hnames
    rw [List.map_cons, List.forall_mem_cons] at huntouched
    rw [Record.ofMembers]
    refine Record.isCanonical_ofMembers rest _ hd.2 hnames.2
      (Record.isCanonical_setMember h huntouched.1 hd.1 (Node.isCanonical_ofLiteral v hd.1)) ?_
    intro other hother
    exact (huntouched.2 other hother).setMember (ne_of_mem_of_not_mem hother hnames.1)

end

/-! ### The literal data of a record -/

theorem Node.ofLiteral_toLiteral_of_isAbsent {n : Node} (h : n.isAbsent = true) :
    ofLiteral n.toLiteral = .absent := by
  cases n with
  | absent => rfl
  | bool b => cases b <;> first | rfl | cases h
  | _ => cases h

namespace Record

theorem members_eq (r : Record) : r.members =
    textMember "component" r.component ++ textMember "part" r.part ++
      textMember "variant" r.variant ++ r.params.entries ++
      (if r.content.isAbsent then [] else [("content", r.content.toLiteral)]) ++
      (if r.mixins.isEmpty then [] else [("mixins", .array (Node.toLiterals r.mixins))]) := by
  cases r
  rw [members]

theorem ofMembers_append (r : Record) (xs ys : List (String × Literal)) :
    ofMembers r (xs ++ ys) = ofMembers (ofMembers r xs) ys := by
  induction xs generalizing r with
  | nil => rfl
  | cons x xs ih => rw [List.cons_append, ofMembers, ofMembers, ih]

/-- Parameters that are read become the parameters they were. -/
theorem ofMembers_params {r : Record} {m : OrderedMap String Literal}
    {entries : List (String × Literal)} (hfields : ∀ e ∈ entries, e.2.isField e.1 = false)
    (hm : m.entries = r.params.entries ++ entries) :
    ofMembers r entries = { r with params := m } := by
  induction entries generalizing r with
  | nil =>
    rw [List.append_nil] at hm
    rw [OrderedMap.eq_of_entries hm]
    cases r
    rfl
  | cons e rest ih =>
    obtain ⟨name, v⟩ := e
    rw [List.forall_mem_cons] at hfields
    have hname : name ∉ r.params.entries.map Prod.fst := by
      have hnodup := m.nodup
      rw [hm, List.map_append, List.nodup_append] at hnodup
      exact fun hmem => hnodup.2.2 name hmem name (List.mem_cons_self ..) rfl
    rw [ofMembers, setMember_of_not_isField hfields.1]
    refine ih hfields.2 ?_
    change m.entries = OrderedMap.place name v r.params.entries ++ rest
    rw [OrderedMap.place_of_notMem v hname, List.append_assoc, hm]
    rfl

/-- A record whose parameters fit is read back from its members, up to what becomes of the trees
inside it. -/
theorem ofMembers_members {r : Record} (h : r.paramsFit = true) :
    ofMembers .blank r.members = { r with
      key := 0
      content := .ofLiteral r.content.toLiteral
      mixins := Node.ofLiterals (Node.toLiterals r.mixins)
      rendering := {} } := by
  obtain ⟨key, component, part, variant, params, content, mixins, rendering⟩ := r
  have htexts : ofMembers .blank (textMember "component" component ++ textMember "part" part ++
      textMember "variant" variant) = { Record.blank with component, part, variant } := by
    cases component <;> cases part <;> cases variant <;> rfl
  have hparams := ofMembers_params (r := { Record.blank with component, part, variant })
    (m := params) (fun e he => (paramsFit_iff.mp h e he).1) rfl
  have hcontent : ofMembers { Record.blank with component, part, variant, params }
      (if content.isAbsent then [] else [("content", content.toLiteral)]) =
        { Record.blank with
          component, part, variant, params, content := .ofLiteral content.toLiteral } := by
    split
    · rename_i habsent
      rw [ofMembers, Node.ofLiteral_toLiteral_of_isAbsent habsent]
      rfl
    · rfl
  rw [members_eq, ofMembers_append, ofMembers_append, ofMembers_append, htexts, hparams, hcontent]
  cases mixins <;> rfl

end Record

/-! ### Numbers that are read back -/

/-- A finite number is read back as an equal one, which has the same literal. -/
theorem Binary64.read_back (x : Binary64.Finite) : ∃ y : Binary64.Finite,
    Node.ofLiteral (toLiteral (.finite x)) = .number (.finite y) ∧ y.same x = true ∧
      toLiteral (.finite y) = toLiteral (.finite x) := by
  cases hi : x.toInt? with
  | none => exact ⟨x, by simp only [toLiteral, hi]; rfl, x.same_self, rfl⟩
  | some i =>
    by_cases hsmall : i.natAbs < 9007199254740992
    · obtain ⟨y, hy, hyi⟩ := ofInt_exact hsmall
      refine ⟨y, ?_, Finite.same_of_toInt? hyi hi,
        by simp only [toLiteral, hi, hyi, dif_pos hsmall]⟩
      simp only [toLiteral, hi, dif_pos hsmall]
      rw [Node.ofLiteral, Json.Number.toBinary64, hy]
    · exact ⟨x, by simp only [toLiteral, hi, dif_neg hsmall]; rfl, x.same_self, rfl⟩

theorem Node.exists_finite {x : Binary64} (h : (Node.number x).isCanonical = true) :
    ∃ y, x = .finite y := by
  cases x with
  | finite y => exact ⟨y, rfl⟩
  | _ => cases h

/-! ### Canonical trees are read back -/

mutual

/-- A canonical tree is read back from its literal data but for what rules wrote. -/
theorem Node.same_ofLiteral_toLiteral : ∀ n : Node, n.isCanonical = true →
    (Node.ofLiteral n.toLiteral).same n.unrendered = true
  | .absent, _ => rfl
  | .bool b, h => by cases b <;> first | rfl | cases h
  | .number x, h => by
    obtain ⟨x, rfl⟩ := Node.exists_finite h
    obtain ⟨y, hy, hsame, -⟩ := Binary64.read_back x
    rw [Node.toLiteral, hy]
    exact hsame
  | .text s, _ => beq_self_eq_true s
  | .list items, h => Node.sameAll_ofLiterals_toLiterals items h
  | .record r, h => by
    rw [Node.toLiteral, Node.ofLiteral]
    exact Record.same_ofMembers_members r h

theorem Node.sameAll_ofLiterals_toLiterals : ∀ ns : List Node, Node.allCanonical ns = true →
    Node.sameAll (Node.ofLiterals (Node.toLiterals ns)) (Node.unrenderedAll ns) = true
  | [], _ => rfl
  | n :: ns, h => by
    rw [Node.allCanonical, Bool.and_eq_true] at h
    rw [Node.toLiterals, Node.ofLiterals, Node.unrenderedAll, Node.sameAll,
      Node.same_ofLiteral_toLiteral n h.1, Node.sameAll_ofLiterals_toLiterals ns h.2,
      Bool.and_self]

theorem Record.same_ofMembers_members : ∀ r : Record, r.isCanonical = true →
    (Record.ofMembers .blank r.members).same r.unrendered = true
  | ⟨key, component, part, variant, params, content, mixins, rendering⟩, h => by
    obtain ⟨hparams, hcontent, hmixins⟩ := Record.isCanonical_iff.mp h
    have hsame : OrderedMap.sameBy Literal.same params params = true :=
      OrderedMap.sameBy_self fun e he =>
        Literal.same_self (Record.paramsFit_iff.mp hparams e he).2.2
    rw [Record.ofMembers_members hparams, Record.unrendered, Record.same]
    simp only [BEq.rfl, Bool.true_and, hsame, Bool.and_eq_true]
    exact ⟨⟨⟨Node.same_ofLiteral_toLiteral content hcontent,
      Node.sameAll_ofLiterals_toLiterals mixins hmixins⟩, trivial⟩, rfl⟩

end

theorem Node.isAbsent_ofLiteral_toLiteral {n : Node} (h : n.isCanonical = true) :
    (ofLiteral n.toLiteral).isAbsent = n.isAbsent := by
  cases n with
  | bool b => cases b <;> rfl
  | number x =>
    obtain ⟨x, rfl⟩ := exists_finite h
    obtain ⟨y, hy, -⟩ := Binary64.read_back x
    rw [toLiteral, hy]
    rfl
  | _ => rfl

mutual

/-- What is read back from the literal data of a canonical tree has the same literal data. -/
theorem Node.toLiteral_ofLiteral_toLiteral : ∀ n : Node, n.isCanonical = true →
    (Node.ofLiteral n.toLiteral).toLiteral = n.toLiteral
  | .absent, _ => rfl
  | .bool b, h => by cases b <;> first | rfl | cases h
  | .number x, h => by
    obtain ⟨x, rfl⟩ := Node.exists_finite h
    obtain ⟨y, hy, -, hliteral⟩ := Binary64.read_back x
    rw [Node.toLiteral, hy]
    exact hliteral
  | .text _, _ => rfl
  | .list items, h => by
    rw [Node.toLiteral, Node.ofLiteral, Node.toLiteral,
      Node.toLiterals_ofLiterals_toLiterals items h]
  | .record r, h => by
    rw [Node.toLiteral, Node.ofLiteral, Node.toLiteral, Record.members_ofMembers_members r h]

theorem Node.toLiterals_ofLiterals_toLiterals : ∀ ns : List Node, Node.allCanonical ns = true →
    Node.toLiterals (Node.ofLiterals (Node.toLiterals ns)) = Node.toLiterals ns
  | [], _ => rfl
  | n :: ns, h => by
    rw [Node.allCanonical, Bool.and_eq_true] at h
    rw [Node.toLiterals, Node.ofLiterals, Node.toLiterals,
      Node.toLiteral_ofLiteral_toLiteral n h.1, Node.toLiterals_ofLiterals_toLiterals ns h.2]

theorem Record.members_ofMembers_members : ∀ r : Record, r.isCanonical = true →
    (Record.ofMembers .blank r.members).members = r.members
  | ⟨key, component, part, variant, params, content, mixins, rendering⟩, h => by
    obtain ⟨hparams, hcontent, hmixins⟩ := Record.isCanonical_iff.mp h
    have hempty : (Node.ofLiterals (Node.toLiterals mixins)).isEmpty = mixins.isEmpty := by
      cases mixins <;> rfl
    rw [Record.ofMembers_members hparams, Record.members, Record.members,
      Node.toLiteral_ofLiteral_toLiteral content hcontent,
      Node.toLiterals_ofLiterals_toLiterals mixins hmixins,
      Node.isAbsent_ofLiteral_toLiteral hcontent, hempty]

end

/-! ### Member names of literal data -/

/-- The members in front of the parameters are fields that are set. -/
theorem Record.texts_names (r : Record) :
    let texts := textMember "component" r.component ++ textMember "part" r.part ++
      textMember "variant" r.variant
    (texts.map Prod.fst).Nodup ∧
      ∀ x ∈ texts.map Prod.fst, x ≠ "content" ∧ x ≠ "mixins" ∧ r.isUnset x = false := by
  obtain ⟨key, component, part, variant, params, content, mixins, rendering⟩ := r
  cases component <;> cases part <;> cases variant <;> simp [textMember, isUnset]

/-- The members behind the parameters are the content, or mixins that are set. -/
theorem Record.inside_names (r : Record) :
    let inside := (if r.content.isAbsent then [] else [("content", r.content.toLiteral)]) ++
      (if r.mixins.isEmpty then [] else [("mixins", .array (Node.toLiterals r.mixins))])
    (inside.map Prod.fst).Nodup ∧
      ∀ x ∈ inside.map Prod.fst, x = "content" ∨ x = "mixins" ∧ r.isUnset x = false := by
  obtain ⟨key, component, part, variant, params, content, mixins, rendering⟩ := r
  cases hmixins : mixins.isEmpty <;> cases content.isAbsent <;> simp [isUnset, hmixins]

/-- No member name comes up twice in the literal data of a record whose parameters fit. -/
theorem Record.nodup_members {r : Record} (h : r.paramsFit = true) :
    (r.members.map Prod.fst).Nodup := by
  rw [paramsFit_iff] at h
  have hparam : ∀ x ∈ r.params.entries.map Prod.fst, x ≠ "content" ∧ r.isUnset x = true := by
    intro x hx
    obtain ⟨e, he, rfl⟩ := List.mem_map.mp hx
    obtain ⟨hfield, hunset, -⟩ := h e he
    refine ⟨fun heq => ?_, hunset⟩
    rw [heq] at hfield
    cases hfield
  obtain ⟨htexts, htext⟩ := r.texts_names
  obtain ⟨hinsides, hinside⟩ := r.inside_names
  rw [members_eq, List.append_assoc, List.map_append, List.map_append, List.nodup_append,
    List.nodup_append]
  refine ⟨⟨htexts, r.params.nodup, ?_⟩, hinsides, ?_⟩
  · rintro x hx _ hp rfl
    exact absurd (hparam x hp).2 (Bool.eq_false_iff.mp (htext x hx).2.2)
  · rintro x hx _ hi rfl
    rcases List.mem_append.mp hx with hx | hp
    · obtain ⟨hcontent, hmixins, -⟩ := htext x hx
      rcases hinside x hi with heq | ⟨heq, -⟩
      · exact hcontent heq
      · exact hmixins heq
    · obtain ⟨hcontent, hunset⟩ := hparam x hp
      rcases hinside x hi with heq | ⟨-, hset⟩
      · exact hcontent heq
      · exact absurd hunset (Bool.eq_false_iff.mp hset)

mutual

/-- No member name comes up twice in the literal data of a canonical tree. -/
theorem Node.isDistinct_toLiteral : ∀ n : Node, n.isCanonical = true → n.toLiteral.isDistinct = true
  | .absent, _ | .bool _, _ | .text _, _ => rfl
  | .number x, _ => by
    rw [Node.toLiteral]
    unfold Binary64.toLiteral
    repeat' split
    all_goals rfl
  | .list items, h => Node.allDistinct_toLiterals items h
  | .record r, h => by
    rw [Node.toLiteral, Json.isDistinct_object]
    exact Record.isDistinct_members r h

theorem Node.allDistinct_toLiterals : ∀ ns : List Node, Node.allCanonical ns = true →
    Json.allDistinct (Node.toLiterals ns) = true
  | [], _ => rfl
  | n :: ns, h => by
    rw [Node.allCanonical, Bool.and_eq_true] at h
    rw [Node.toLiterals, Json.allDistinct, Node.isDistinct_toLiteral n h.1,
      Node.allDistinct_toLiterals ns h.2, Bool.and_self]

theorem Record.isDistinct_members : ∀ r : Record, r.isCanonical = true →
    (r.members.map Prod.fst).Nodup ∧ ∀ e ∈ r.members, e.2.isDistinct = true
  | ⟨key, component, part, variant, params, content, mixins, rendering⟩, h => by
    obtain ⟨hparams, hcontent, hmixins⟩ := Record.isCanonical_iff.mp h
    refine ⟨Record.nodup_members hparams, ?_⟩
    have text : ∀ {name : String} {text : Option String}, ∀ e ∈ textMember name text,
        e.2.isDistinct = true := by
      intro name text e he
      cases text with
      | none => cases he
      | some s => rw [List.mem_singleton.mp he]; rfl
    rw [Record.members]
    simp only [List.forall_mem_append]
    refine ⟨⟨⟨⟨⟨text, text⟩, text⟩, fun e he => ?_⟩, ?_⟩, ?_⟩
    · exact (Record.paramsFit_iff.mp hparams e he).2.2
    · split
      · exact fun e he => by cases he
      · rw [List.forall_mem_singleton]
        exact Node.isDistinct_toLiteral content hcontent
    · split
      · exact fun e he => by cases he
      · rw [List.forall_mem_singleton]
        exact Node.allDistinct_toLiterals mixins hmixins

end

/-! ### There and back -/

/-- What is read from literal data is canonical. The literal data of a canonical tree has no member
name twice; what is read back from it is equal to the tree but for what rules wrote, and has the
same literal data with its members in the same order. -/
theorem Node.ofLiteral_canonical_and_back :
    (∀ v : Literal, v.isDistinct = true → (ofLiteral v).isCanonical = true) ∧
    ∀ n : Node, n.isCanonical = true → n.toLiteral.isDistinct = true ∧
      (ofLiteral n.toLiteral).same n.unrendered = true ∧
        (ofLiteral n.toLiteral).toLiteral = n.toLiteral :=
  ⟨isCanonical_ofLiteral, fun n h => ⟨n.isDistinct_toLiteral h, n.same_ofLiteral_toLiteral h,
    n.toLiteral_ofLiteral_toLiteral h⟩⟩

/-- A badge that a rule has stopped. A parameter of it has the name of a field that is not set, and
among its content is a minus zero. -/
def Node.badge : Node :=
  .record { Record.blank with
    key := 7
    component := some "badge"
    params := .ofList [("part", .number (.float (.zero false))), ("size", .object [("w", .null)])]
    content := .list [.absent, .number (.finite (.zero true)),
      .record { Record.blank with key := 8, part := some "icon" }]
    mixins := [.record { Record.blank with component := some "hint", content := .text "new" }]
    rendering := { stopped := true } }

/-- The literal data of a badge with one mixin, in which a field is `null`. -/
def Literal.badge : Literal :=
  .object [("variant", .null), ("mixins", .object [("component", .string "hint")]),
    ("component", .string "badge"), ("content", .array [.bool false, .string "new"])]

/-- The badge is read back as it was, but for the stop, with zero for minus zero. -/
theorem Node.badge_read_back :
    (Literal.badge.isDistinct = true ∧ (ofLiteral .badge).isCanonical = true) ∧
    badge.isCanonical = true ∧ badge.toLiteral.isDistinct = true ∧
      (ofLiteral badge.toLiteral).same badge.unrendered = true ∧
        (ofLiteral badge.toLiteral).toLiteral = badge.toLiteral := by
  have hliteral : Literal.badge.isDistinct = true := by decide +kernel
  have hnode : badge.isCanonical = true := by decide +kernel
  exact ⟨⟨hliteral, ofLiteral_canonical_and_back.1 _ hliteral⟩, hnode,
    ofLiteral_canonical_and_back.2 _ hnode⟩

end ComponentTree
