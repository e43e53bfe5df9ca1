import ComponentTree.Proofs.Tree.Flat
import ComponentTree.Proofs.Tree.Identity
import ComponentTree.Proofs.Tree.Path
import Mathlib.Data.List.Forall2

/-!
Trees that differ in their identities.

A relation between identities says which ones stand for the same record on two sides. One tree is
renamed to another one if they are the same without identities and the identities at the same places
are related (`Node.Renamed`), which comes to the same as going through both trees together
(`renamed_list`, `renamed_record`). What a pass does with a tree does the same with a renamed one:
what is found at a path, what is put there and flattened content are renamed again, and the same
sites are queued. Main statement: copies with new identities are renamed to each other if the trees
that they were made of are the same without identities (`renamed_reissue`).
-/

namespace ComponentTree

variable {keys : Key → Key → Prop}

/-! ### Related options and lists -/

theorem rel_bind {α β : Type} {R : α → α → Prop} {S : β → β → Prop} {x x' : Option α}
    {f f' : α → Option β} (hx : Option.Rel R x x')
    (hf : ∀ a a', R a a' → Option.Rel S (f a) (f' a')) :
    Option.Rel S (x.bind f) (x'.bind f') := by
  cases hx with
  | none => exact .none
  | some ha => exact hf _ _ ha

theorem rel_map {α β : Type} {R : α → α → Prop} {S : β → β → Prop} {x x' : Option α}
    {f f' : α → β} (hx : Option.Rel R x x') (hf : ∀ a a', R a a' → S (f a) (f' a')) :
    Option.Rel S (x.map f) (x'.map f') := by
  cases hx with
  | none => exact .none
  | some ha => exact .some (hf _ _ ha)

theorem rel_isNone {α : Type} {R : α → α → Prop} {x x' : Option α} (hx : Option.Rel R x x') :
    x.isNone = x'.isNone := by
  cases hx <;> rfl

theorem rel_getD {α : Type} {R : α → α → Prop} {x x' : Option α} {a a' : α}
    (hx : Option.Rel R x x') (ha : R a a') : R (x.getD a) (x'.getD a') := by
  cases hx with
  | none => exact ha
  | some h => exact h

theorem forall₂_of_append {α : Type} {R : α → α → Prop} {a b a' b' : List α}
    (hlength : a.length = a'.length) (h : List.Forall₂ R (a ++ b) (a' ++ b')) :
    List.Forall₂ R a a' ∧ List.Forall₂ R b b' := by
  have htake := List.forall₂_take a.length h
  have hdrop := List.forall₂_drop a.length h
  rw [List.take_left, hlength, List.take_left] at htake
  rw [List.drop_left, hlength, List.drop_left] at hdrop
  exact ⟨htake, hdrop⟩

/-! ### Identities of a tree -/

mutual

theorem Node.keys_mapKeys (f : Key → Key) : ∀ n : Node, (n.mapKeys f).keys = n.keys.map f
  | .absent | .bool _ | .number _ | .text _ => rfl
  | .list items => by rw [Node.mapKeys, Node.keys, Node.keys, Node.keysAll_mapKeysAll f items]
  | .record r => by rw [Node.mapKeys, Node.keys, Node.keys, Record.keys_mapKeys f r]

theorem Node.keysAll_mapKeysAll (f : Key → Key) : ∀ ns : List Node,
    Node.keysAll (Node.mapKeysAll f ns) = (Node.keysAll ns).map f
  | [] => rfl
  | n :: ns => by
    rw [Node.mapKeysAll, Node.keysAll, Node.keysAll, Node.keys_mapKeys f n,
      Node.keysAll_mapKeysAll f ns, List.map_append]

theorem Record.keys_mapKeys (f : Key → Key) : ∀ r : Record, (r.mapKeys f).keys = r.keys.map f
  | ⟨key, component, part, variant, params, content, mixins, rendering⟩ => by
    rw [Record.mapKeys, Record.keys, Record.keys, Node.keys_mapKeys f content,
      Node.keysAll_mapKeysAll f mixins, List.map_cons, List.map_append]

end

mutual

/-- A copy with new identities has the keys from the first new one on. -/
theorem Node.reissue_spec (next : Key) : ∀ n : Node,
    (n.reissue next).1.anonymous = n.anonymous ∧
      (n.reissue next).1.keys = List.range' next n.keys.length ∧
        (n.reissue next).2 = next + n.keys.length
  | .absent | .bool _ | .number _ | .text _ => ⟨rfl, rfl, rfl⟩
  | .list items => by
    obtain ⟨hsame, hkeys, hnext⟩ := Node.reissueAll_spec next items
    exact ⟨congrArg Node.list hsame, hkeys, hnext⟩
  | .record r => by
    obtain ⟨hsame, hkeys, hnext⟩ := Record.reissue_spec next r
    exact ⟨congrArg Node.record hsame, hkeys, hnext⟩

theorem Node.reissueAll_spec (next : Key) : ∀ ns : List Node,
    Node.mapKeysAll (fun _ => 0) (Node.reissueAll next ns).1 =
        Node.mapKeysAll (fun _ => 0) ns ∧
      Node.keysAll (Node.reissueAll next ns).1 = List.range' next (Node.keysAll ns).length ∧
        (Node.reissueAll next ns).2 = next + (Node.keysAll ns).length
  | [] => ⟨rfl, rfl, rfl⟩
  | n :: ns => by
    obtain ⟨hsame, hkeys, hnext⟩ := Node.reissue_spec next n
    obtain ⟨hsame', hkeys', hnext'⟩ := Node.reissueAll_spec (n.reissue next).2 ns
    refine ⟨congrArg₂ List.cons hsame hsame', ?_, ?_⟩
    · rw [Node.keysAll, List.length_append, ← List.range'_append_1, ← hkeys, ← hnext, ← hkeys']
      rfl
    · rw [Node.keysAll, List.length_append, ← Nat.add_assoc, ← hnext, ← hnext']
      rfl

theorem Record.reissue_spec (next : Key) : ∀ r : Record,
    (r.reissue next).1.mapKeys (fun _ => 0) = r.mapKeys (fun _ => 0) ∧
      (r.reissue next).1.keys = List.range' next r.keys.length ∧
        (r.reissue next).2 = next + r.keys.length
  | ⟨key, component, part, variant, params, content, mixins, rendering⟩ => by
    obtain ⟨hsame, hkeys, hnext⟩ := Node.reissue_spec (next + 1) content
    obtain ⟨hsame', hkeys', hnext'⟩ := Node.reissueAll_spec (content.reissue (next + 1)).2 mixins
    have hadd : ∀ i j k : Nat, i + (j + k + 1) = i + 1 + j + k := by omega
    refine ⟨?_, ?_, ?_⟩
    · rw [Record.mapKeys, ← hsame']
      exact congrArg (Record.mk 0 component part variant params · _ rendering) hsame
    · rw [Record.keys, List.length_cons, List.length_append, List.range'_succ,
        ← List.range'_append_1, ← hkeys, ← hnext, ← hkeys']
      rfl
    · rw [Record.keys, List.length_cons, List.length_append, hadd, ← hnext, ← hnext']
      rfl

end

/-! ### Renamed trees -/

/-- The trees are the same without identities, and the identities at the same places are related. -/
structure Node.Renamed (keys : Key → Key → Prop) (n n' : Node) : Prop where
  same : n.anonymous = n'.anonymous
  keys : List.Forall₂ keys n.keys n'.keys

/-- The records are the same without identities, and the identities at the same places are
related. -/
structure Record.Renamed (keys : Key → Key → Prop) (r r' : Record) : Prop where
  key : keys r.key r'.key
  fields : r' = { r with key := r'.key, content := r'.content, mixins := r'.mixins }
  content : r.content.Renamed keys r'.content
  mixins : List.Forall₂ (Node.Renamed keys) r.mixins r'.mixins

namespace Record

variable {r r' : Record}

theorem Renamed.component_eq (h : r.Renamed keys r') : r'.component = r.component :=
  congrArg (·.component) h.fields

theorem Renamed.part_eq (h : r.Renamed keys r') : r'.part = r.part :=
  congrArg (·.part) h.fields

theorem Renamed.variant_eq (h : r.Renamed keys r') : r'.variant = r.variant :=
  congrArg (·.variant) h.fields

theorem Renamed.params_eq (h : r.Renamed keys r') : r'.params = r.params :=
  congrArg (·.params) h.fields

theorem Renamed.rendering_eq (h : r.Renamed keys r') : r'.rendering = r.rendering :=
  congrArg (·.rendering) h.fields

end Record

namespace Node

variable {n n' t t' : Node}

theorem Renamed.mono {keys' : Key → Key → Prop} (hkeys : ∀ a b, keys a b → keys' a b)
    (h : n.Renamed keys n') : n.Renamed keys' n' :=
  ⟨h.same, h.keys.imp hkeys⟩

theorem length_keys_of_anonymous (h : n.anonymous = n'.anonymous) :
    n.keys.length = n'.keys.length := by
  have hlength := congrArg (fun m : Node => m.keys.length) h
  simpa only [anonymous, keys_mapKeys, List.length_map] using hlength

/-- Lists of nodes are renamed node by node. -/
theorem renamedAll_iff : ∀ {ns ns' : List Node}, List.Forall₂ (Renamed keys) ns ns' ↔
    mapKeysAll (fun _ => 0) ns = mapKeysAll (fun _ => 0) ns' ∧
      List.Forall₂ keys (keysAll ns) (keysAll ns')
  | [], [] => ⟨fun _ => ⟨rfl, .nil⟩, fun _ => .nil⟩
  | [], _ :: _ => ⟨nofun, nofun⟩
  | _ :: _, [] => ⟨nofun, nofun⟩
  | n :: ns, n' :: ns' => by
    rw [List.forall₂_cons, renamedAll_iff, mapKeysAll, mapKeysAll, List.cons.injEq, keysAll,
      keysAll]
    constructor
    · rintro ⟨⟨hsame, hkeys⟩, hsames, hrest⟩
      exact ⟨⟨hsame, hsames⟩, List.rel_append hkeys hrest⟩
    · rintro ⟨⟨hsame, hsames⟩, hkeys⟩
      obtain ⟨hkeys, hrest⟩ := forall₂_of_append (length_keys_of_anonymous hsame) hkeys
      exact ⟨⟨hsame, hkeys⟩, hsames, hrest⟩

theorem renamed_list {items items' : List Node} :
    (list items).Renamed keys (list items') ↔ List.Forall₂ (Renamed keys) items items' := by
  rw [renamedAll_iff]
  exact ⟨fun h => ⟨list.inj h.same, h.keys⟩, fun h => ⟨congrArg list h.1, h.2⟩⟩

theorem renamed_record {r r' : Record} :
    (record r).Renamed keys (record r') ↔ r.Renamed keys r' := by
  obtain ⟨key, component, part, variant, params, content, mixins, rendering⟩ := r
  obtain ⟨key', component', part', variant', params', content', mixins', rendering'⟩ := r'
  constructor
  · rintro ⟨hsame, hkeys⟩
    simp only [anonymous, mapKeys, Record.mapKeys, record.injEq, Record.mk.injEq] at hsame
    obtain ⟨-, rfl, rfl, rfl, rfl, hcontent, hmixins, rfl⟩ := hsame
    obtain ⟨hkey, hkeys⟩ := List.forall₂_cons.mp hkeys
    obtain ⟨hcontents, hmixed⟩ := forall₂_of_append (length_keys_of_anonymous hcontent) hkeys
    exact ⟨hkey, rfl, ⟨hcontent, hcontents⟩, renamedAll_iff.mpr ⟨hmixins, hmixed⟩⟩
  · rintro ⟨hkey, hfields, hcontent, hmixins⟩
    obtain ⟨hmixins, hmixed⟩ := renamedAll_iff.mp hmixins
    simp only [Record.mk.injEq, true_and] at hfields
    obtain ⟨rfl, rfl, rfl, rfl, rfl⟩ := hfields
    refine ⟨?_, List.Forall₂.cons hkey (List.rel_append hcontent.keys hmixed)⟩
    simp only [anonymous, mapKeys, Record.mapKeys, hmixins]
    exact congrArg (fun n => record (Record.mk 0 component' part' variant' params' n _ rendering'))
      hcontent.same

/-- Renamed nodes are both lists, both records, or one node that is neither. -/
theorem Renamed.cases (h : n.Renamed keys n') :
    (∃ items items', n = list items ∧ n' = list items' ∧
      List.Forall₂ (Renamed keys) items items') ∨
    (∃ r r', n = record r ∧ n' = record r' ∧ r.Renamed keys r') ∨ n = n' ∧ n.isInner = false := by
  have hsame := h.same
  cases n <;> cases n' <;> simp only [anonymous, mapKeys, reduceCtorEq] at hsame
  case list => exact Or.inl ⟨_, _, rfl, rfl, renamed_list.mp h⟩
  case record => exact Or.inr (Or.inl ⟨_, _, rfl, rfl, renamed_record.mp h⟩)
  all_goals exact Or.inr (Or.inr ⟨by first | rfl | rw [hsame], rfl⟩)

/-! ### What a pass does with a tree -/

theorem isInner_mapKeys (f : Key → Key) (n : Node) : (n.mapKeys f).isInner = n.isInner := by
  cases n <;> rfl

theorem isList_mapKeys (f : Key → Key) (n : Node) : (n.mapKeys f).isList = n.isList := by
  cases n <;> rfl

theorem isAbsent_mapKeys (f : Key → Key) (n : Node) : (n.mapKeys f).isAbsent = n.isAbsent := by
  cases n <;> rfl

theorem Renamed.isInner (h : n.Renamed keys n') : n.isInner = n'.isInner := by
  rw [← isInner_mapKeys (fun _ => 0) n, ← isInner_mapKeys (fun _ => 0) n']
  exact congrArg Node.isInner h.same

theorem Renamed.isList (h : n.Renamed keys n') : n.isList = n'.isList := by
  rw [← isList_mapKeys (fun _ => 0) n, ← isList_mapKeys (fun _ => 0) n']
  exact congrArg Node.isList h.same

theorem Renamed.isAbsent (h : n.Renamed keys n') : n.isAbsent = n'.isAbsent := by
  rw [← isAbsent_mapKeys (fun _ => 0) n, ← isAbsent_mapKeys (fun _ => 0) n']
  exact congrArg Node.isAbsent h.same

theorem Renamed.record? (h : n.Renamed keys n') :
    Option.Rel (Record.Renamed keys) n.record? n'.record? := by
  rcases h.cases with ⟨_, _, rfl, rfl, -⟩ | ⟨r, r', rfl, rfl, hr⟩ | ⟨rfl, hn⟩
  · exact .none
  · exact .some hr
  · cases n <;> first | exact .none | cases hn

/-- What is found in renamed lists at the same place is renamed. -/
theorem renamed_getElem? {items items' : List Node}
    (h : List.Forall₂ (Renamed keys) items items') (i : Nat) :
    Option.Rel (Renamed keys) items[i]? items'[i]? := by
  induction h generalizing i with
  | nil => exact .none
  | cons hn _ ih =>
    cases i with
    | zero => exact .some hn
    | succ i => exact ih i

/-- What is found in renamed trees at the same path is renamed. -/
theorem Renamed.at? : ∀ (path : Path) {t t' : Node}, t.Renamed keys t' →
    Option.Rel (Renamed keys) (t.at? path) (t'.at? path)
  | [], _, _, h => .some h
  | .item i :: path, t, t', h => by
    rcases h.cases with ⟨items, items', rfl, rfl, hitems⟩ | ⟨_, _, rfl, rfl, -⟩ | ⟨rfl, hn⟩
    · rw [at?_item_list, at?_item_list]
      exact rel_bind (renamed_getElem? hitems i) fun _ _ hn => Renamed.at? path hn
    · exact .none
    · cases t <;> first | exact .none | cases hn
  | .content :: path, t, t', h => by
    rcases h.cases with ⟨_, _, rfl, rfl, -⟩ | ⟨r, r', rfl, rfl, hr⟩ | ⟨rfl, hn⟩
    · exact .none
    · rw [at?_content_record, at?_content_record]
      exact Renamed.at? path hr.content
    · cases t <;> first | exact .none | cases hn

/-- Changing renamed lists at the same place in the same way leaves renamed lists. -/
theorem renamed_modify {f f' : Node → Node} {items items' : List Node}
    (h : List.Forall₂ (Renamed keys) items items')
    (hf : ∀ n n', n.Renamed keys n' → (f n).Renamed keys (f' n')) (i : Nat) :
    List.Forall₂ (Renamed keys) (items.modify i f) (items'.modify i f') := by
  induction h generalizing i with
  | nil => rw [List.modify_nil, List.modify_nil]; exact .nil
  | cons hn hrest ih =>
    cases i with
    | zero => simpa using List.Forall₂.cons (hf _ _ hn) hrest
    | succ i => simpa using List.Forall₂.cons hn (ih i)

/-- Renamed nodes put at the same path of renamed trees leave renamed trees. -/
theorem Renamed.put {new new' : Node} (hnew : new.Renamed keys new') :
    ∀ (path : Path) {t t' : Node}, t.Renamed keys t' →
      (Node.put new path t).Renamed keys (Node.put new' path t')
  | [], _, _, _ => by rwa [put_nil, put_nil]
  | .item i :: path, t, t', h => by
    rcases h.cases with ⟨items, items', rfl, rfl, hitems⟩ | ⟨_, _, rfl, rfl, -⟩ | ⟨rfl, hn⟩
    · exact renamed_list.mpr
        (renamed_modify hitems (fun _ _ hn => Renamed.put hnew path hn) i)
    · exact h
    · cases t <;> first | exact h | cases hn
  | .content :: path, t, t', h => by
    rcases h.cases with ⟨_, _, rfl, rfl, -⟩ | ⟨r, r', rfl, rfl, hr⟩ | ⟨rfl, hn⟩
    · exact h
    · exact renamed_record.mpr { hr with
        fields := by rw [hr.fields], content := Renamed.put hnew path hr.content }
    · cases t <;> first | exact h | cases hn

theorem leaves_renamed (items : List Node) : ∀ items' : List Node,
    List.Forall₂ (Renamed keys) items items' →
      List.Forall₂ (Renamed keys) (leaves items) (leaves items') := by
  induction items using leaves.induct with
  | case1 =>
    rintro _ ⟨⟩
    rw [leaves]
    exact .nil
  | case2 inner rest ihinner ihrest =>
    rintro _ (_ | ⟨hn, hrest⟩)
    rcases hn.cases with ⟨items, items', hlist, rfl, hitems⟩ | ⟨_, _, hr, -⟩ | ⟨-, hn⟩
    · obtain rfl := list.inj hlist
      rw [leaves, leaves]
      exact List.rel_append (ihinner _ hitems) (ihrest _ hrest)
    · cases hr
    · cases hn
  | case3 n rest hn ih =>
    rintro _ (_ | ⟨hn', hrest⟩)
    have hlist := isList_eq_false hn
    rw [leaves_cons hlist, leaves_cons (hn'.isList ▸ hlist)]
    exact .cons hn' (ih _ hrest)

theorem Renamed.flattenContent (h : t.Renamed keys t') :
    t.flattenContent.Renamed keys t'.flattenContent := by
  rcases h.cases with ⟨items, items', rfl, rfl, hitems⟩ | ⟨_, _, rfl, rfl, -⟩ | ⟨rfl, hn⟩
  · rw [flattenContent_list, flattenContent_list]
    exact renamed_list.mpr (leaves_renamed items items' hitems)
  · exact h
  · cases t <;> first | exact h | cases hn

end Node

/-! ### Sites -/

theorem filterMap_zipIdx_renamed {β : Type} {f : Node × Nat → Option β}
    (hf : ∀ n n' i, n.Renamed keys n' → f (n, i) = f (n', i)) :
    ∀ {ns ns' : List Node} (start : Nat), List.Forall₂ (Node.Renamed keys) ns ns' →
      (ns.zipIdx start).filterMap f = (ns'.zipIdx start).filterMap f
  | _, _, _, .nil => rfl
  | _, _, start, .cons hn hns => by
    rw [List.zipIdx_cons, List.zipIdx_cons, List.filterMap_cons, List.filterMap_cons,
      hf _ _ start hn, filterMap_zipIdx_renamed hf _ hns]

theorem Site.ofItems_of_renamed {items items' : List Node}
    (h : List.Forall₂ (Node.Renamed keys) items items') (base : Path) (owner : Owner) :
    Site.ofItems base owner items = Site.ofItems base owner items' := by
  rw [ofItems, ofItems, h.length_eq]
  refine filterMap_zipIdx_renamed (fun n n' i hn => ?_) 0 h
  simp only [hn.isInner]

theorem Site.ofContent_of_renamed {content content' : Node} (h : content.Renamed keys content')
    (base : Path) (owner : Owner) :
    Site.ofContent base owner content = Site.ofContent base owner content' := by
  rcases h.cases with ⟨items, items', rfl, rfl, hitems⟩ | ⟨_, _, rfl, rfl, -⟩ | ⟨rfl, hn⟩
  · exact ofItems_of_renamed hitems _ owner
  · rfl
  · rfl

/-! ### New identities -/

/-- From two counters on, the identities that are given next are related. -/
def Abreast (keys : Key → Key → Prop) (next next' : Key) : Prop :=
  ∀ n, keys (next + n) (next' + n)

theorem Abreast.add {next next' : Key} (h : Abreast keys next next') (m : Nat) :
    Abreast keys (next + m) (next' + m) := fun n => by
  rw [Nat.add_assoc, Nat.add_assoc]
  exact h (m + n)

theorem Abreast.range' : ∀ {next next' : Key}, Abreast keys next next' → ∀ n,
    List.Forall₂ keys (List.range' next n) (List.range' next' n)
  | _, _, _, 0 => .nil
  | _, _, h, n + 1 => by
    rw [List.range'_succ, List.range'_succ]
    exact .cons (h 0) (range' (h.add 1) n)

/-- Copies with new identities are renamed to each other if the trees are the same without
identities, and the counters stay abreast. -/
theorem Node.renamed_reissue {t t' : Node} {next next' : Key} (hsame : t.anonymous = t'.anonymous)
    (h : Abreast keys next next') :
    (t.reissue next).1.Renamed keys (t'.reissue next').1 ∧
      Abreast keys (t.reissue next).2 (t'.reissue next').2 := by
  obtain ⟨hcopy, hkeys, hnext⟩ := t.reissue_spec next
  obtain ⟨hcopy', hkeys', hnext'⟩ := t'.reissue_spec next'
  have hlength := Node.length_keys_of_anonymous hsame
  rw [hnext, hnext', ← hlength]
  refine ⟨⟨by rw [hcopy, hcopy', hsame], ?_⟩, h.add _⟩
  rw [hkeys, hkeys', ← hlength]
  exact h.range' _

end ComponentTree
