import ComponentTree.Proofs.Expansion.BreadthFirst
import ComponentTree.Proofs.Markup.Identity
import ComponentTree.Proofs.Tree.Equality
import ComponentTree.Proofs.Tree.Flat

/-!
Expanding an expanded tree.

An expanded tree differs from the one that it came from: records have taken over components and
variants, content is flat, and rules have written what they write. Expanded again, it comes to the
same owners and the same positions, and so to the same rules. If these change nothing on a record
that an expansion has left (`Settles`), plain recursion leaves its own result as it is
(`unfold_unfolded`). Rules may look at the content, which is expanded when they come by again; for
rules that do not, it is enough that they do not change a record that they have just left
(`Idempotent.settles`), but it is not enough for all (`expand_again_bullets`). Main statement:
expanding an expanded tree changes neither the tree nor its markup (`expand_again`).
-/

namespace ComponentTree

variable {σ : Type}

namespace Node

/-! ### The parts of a node -/

/-- The items of a list, or the node itself if it is none. -/
def parts : Node → List Node
  | .list items => items
  | node => [node]

theorem parts_of_not_isList {t : Node} (h : t.isList = false) : t.parts = [t] := by
  cases t with
  | list => cases h
  | _ => rfl

theorem mapInside_of_not_isList (g : Position → Node → Node) {t : Node} (h : t.isList = false) :
    t.mapInside g = g .alone t := by
  cases t with
  | list => cases h
  | _ => rfl

/-- What holds of a list if it holds of its items, of a record if it holds of the parts of its
flattened content, and of all other nodes, holds of every node. -/
theorem parts_induction {P : Node → Prop} (list : ∀ items, (∀ n ∈ items, P n) → P (.list items))
    (record : ∀ r : Record, (∀ n ∈ r.content.flattenContent.parts, P n) → P (.record r))
    (other : ∀ n : Node, n.isInner = false → P n) (n : Node) : P n := by
  have hparts : ∀ {m t : Node}, m ∈ t.parts → m.size ≤ t.size := by
    intro m t hm
    cases t with
    | list items => exact Nat.le_of_lt (size_lt_list hm)
    | _ => exact Nat.le_of_eq (congrArg size (List.mem_singleton.mp hm))
  induction hsize : n.size using Nat.strong_induction_on generalizing n with
  | _ size ih =>
    subst hsize
    cases n with
    | list items => exact list items fun m hm => ih _ (size_lt_list hm) m rfl
    | record r =>
      refine record r fun m hm => ih _ ?_ m rfl
      exact Nat.lt_of_le_of_lt ((hparts hm).trans r.content.size_flattenContent_le)
        (size_content_lt r)
    | _ => exact other _ rfl

theorem mapInside_congr {g h : Position → Node → Node} {t : Node}
    (hgh : ∀ position, ∀ n ∈ t.parts, g position n = h position n) :
    t.mapInside g = t.mapInside h := by
  cases t with
  | list items =>
    exact congrArg list (List.map_congr_left fun x hx =>
      hgh _ x.1 (List.fst_mem_of_mem_zipIdx hx))
  | _ => exact hgh .alone _ (List.mem_singleton_self _)

theorem reachedKeysAll_eq_flatMap (ns : List Node) :
    reachedKeysAll ns = ns.flatMap reachedKeys := by
  induction ns with
  | nil => rfl
  | cons n ns ih => rw [reachedKeysAll, ih, List.flatMap_cons]

theorem reachedKeys_mapInside {g : Position → Node → Node} {t : Node}
    (hg : ∀ position, ∀ n ∈ t.parts, (g position n).reachedKeys = n.reachedKeys) :
    (t.mapInside g).reachedKeys = t.reachedKeys := by
  cases t with
  | list items =>
    have hitems : items.zipIdx.flatMap (fun x => (g (.listed x.2 items.length) x.1).reachedKeys) =
        items.zipIdx.flatMap fun x => x.1.reachedKeys :=
      List.flatMap_congr fun x hx => hg _ x.1 (List.fst_mem_of_mem_zipIdx hx)
    rw [mapInside, reachedKeys, reachedKeys, reachedKeysAll_eq_flatMap, reachedKeysAll_eq_flatMap,
      List.flatMap_map, hitems, ← List.flatMap_map, List.zipIdx_map_fst]
  | _ => exact hg .alone _ (List.mem_singleton_self _)

/-! ### Trees that match what was put inside -/

theorem isList_veiled (n : Node) : n.veiled.isList = n.isList := by
  cases n <;> rfl

variable {g h : Position → Node → Node} {s t : Node}

/-- A tree that matches a list with changed items is a list whose items match them. -/
theorem exists_list_of_veiled {items : List Node}
    (ht : t.veiled = ((list items).mapInside g).veiled) :
    ∃ others : List Node, t = list others ∧ others.length = items.length ∧
      ∀ i, ∀ m ∈ others[i]?, ∃ n ∈ items[i]?, m.veiled = (g (.listed i items.length) n).veiled := by
  rw [mapInside, veiled_list, List.map_map] at ht
  cases t with
  | list others =>
    rw [veiled_list, list.injEq] at ht
    refine ⟨others, rfl, ?_, fun i m hm => ?_⟩
    · simpa using congrArg List.length ht
    · have hi := congrArg (·[i]?) ht
      simp only [List.getElem?_map, Option.mem_def.mp hm, List.getElem?_zipIdx,
        Option.map_some] at hi
      cases hn : items[i]? with
      | none => rw [hn] at hi; cases hi
      | some n =>
        rw [hn] at hi
        exact ⟨n, rfl, by simpa using hi⟩
  | _ => cases ht

/-- If a change leaves everything as it is that matches the changed parts of a node, it leaves the
parts of every tree that matches the node with its parts changed. -/
theorem mapInside_of_veiled (hg : ∀ position n, (g position n).isList = n.isList)
    (ht : t.veiled = (s.mapInside g).veiled)
    (hh : ∀ position, ∀ n ∈ s.parts, ∀ m : Node, m.veiled = (g position n).veiled →
      (h position m).veiled = m.veiled) : (t.mapInside h).veiled = t.veiled := by
  cases hs : s.isList with
  | true =>
    cases s with
    | list items =>
      obtain ⟨others, rfl, hlength, hothers⟩ := exists_list_of_veiled ht
      rw [mapInside, veiled_list, veiled_list, List.map_map]
      refine congrArg list (List.ext_getElem? fun i => ?_)
      rw [List.getElem?_map, List.getElem?_map, List.getElem?_zipIdx]
      cases hm : others[i]? with
      | none => rfl
      | some m =>
        obtain ⟨n, hn, hmn⟩ := hothers i m hm
        rw [← hlength] at hmn
        simpa using hh _ n (List.mem_of_getElem? hn) m hmn
    | _ => cases hs
  | false =>
    rw [mapInside_of_not_isList g hs] at ht
    have hlist : t.isList = false := by rw [← t.isList_veiled, ht, isList_veiled, hg, hs]
    rw [mapInside_of_not_isList h hlist]
    exact hh .alone s (by rw [parts_of_not_isList hs]; exact List.mem_singleton_self _) t ht

/-- A tree that matches flattened content is flat. -/
theorem flattenContent_of_veiled (hg : ∀ position n, (g position n).isList = n.isList)
    (ht : t.veiled = (s.flattenContent.mapInside g).veiled) : t.flattenContent = t := by
  cases s with
  | list items =>
    rw [flattenContent] at ht
    obtain ⟨others, rfl, -, hothers⟩ := exists_list_of_veiled ht
    refine flattenContent_of_isFlat (isFlat_list.mpr fun m hm => ?_)
    obtain ⟨i, hi⟩ := List.mem_iff_getElem?.mp hm
    obtain ⟨n, hn, hmn⟩ := hothers i m hi
    have hflat := isFlat_list.mp (list items).isFlat_flattenContent n (List.mem_of_getElem? hn)
    rwa [← m.isList_veiled, hmn, isList_veiled, hg]
  | _ =>
    have hlist : t.isList = false := by
      rw [← t.isList_veiled, ht, isList_veiled]
      exact hg .alone _
    cases t with
    | list => cases hlist
    | _ => rfl

end Node

/-! ### What plain recursion leaves of a tree -/

/-- Rules write nothing of a record but its rendering and its mixins. -/
theorem Record.dressAll_eq (f : Dressing) (position : Position) :
    ∀ (rules : List RuleId) (r : Record), ∃ rendering mixins,
      r.dressAll f position rules = { r with rendering, mixins }
  | [], r => ⟨r.rendering, r.mixins, by cases r; rfl⟩
  | rule :: rest, r => by
    rw [dressAll]
    split
    · exact ⟨_, _, rfl⟩
    · exact dressAll_eq f position rest (r.dress f rule position)

theorem Record.dressAll_singleton (f : Dressing) (position : Position) (rule : RuleId)
    (r : Record) : r.dressAll f position [rule] = r.dress f rule position := by
  rw [dressAll, dressAll, ite_self]

/-- What the rules make of a record does not depend on its content. -/
def Dressing.IgnoresContent (f : Dressing) : Prop :=
  ∀ rule position (r : Record) content, f rule position { r with content } = f rule position r

theorem Dressing.IgnoresContent.dressAll {f : Dressing} (hf : f.IgnoresContent)
    (position : Position) (content : Node) : ∀ (rules : List RuleId) (r : Record),
      ({ r with content } : Record).dressAll f position rules =
        { r.dressAll f position rules with content }
  | [], _ => rfl
  | rule :: rest, r => by
    have hrule : f rule position ({ r with content } : Record).masked = f rule position r.masked :=
      hf rule position r.masked content
    have hdress : ({ r with content } : Record).dress f rule position =
        { r.dress f rule position with content } := by
      unfold Record.dress
      rw [hrule]
    rw [Record.dressAll, Record.dressAll, hdress]
    dsimp only
    split
    · rfl
    · exact dressAll hf position content rest _

namespace Engine

variable {e : Engine σ} {f : Dressing}

theorem dressed_eq (e : Engine σ) (f : Dressing) (position : Position) (owner : Owner)
    (r : Record) : ∃ rendering mixins,
      e.dressed f position owner r = { r with rendering, mixins } := by
  have hself : ∃ rendering mixins, r = { r with rendering, mixins } :=
    ⟨r.rendering, r.mixins, by cases r; rfl⟩
  unfold dressed
  split
  · exact hself
  · split
    · exact hself
    · unfold dressMatched
      split
      · exact hself
      · exact r.dressAll_eq f position _

theorem isList_unfold (owner : Owner) (position : Position) (n : Node) :
    (e.unfold f owner position n).isList = n.isList := by
  cases n with
  | list items => rw [unfold_list]; rfl
  | record r => rw [unfold_record rfl]; rfl
  | _ => rw [unfold_of_not_isInner rfl]

/-- The records in reach keep their identities and their order. -/
theorem reachedKeys_unfold (e : Engine σ) (f : Dressing) (n : Node) :
    ∀ owner position, (e.unfold f owner position n).reachedKeys = n.reachedKeys := by
  induction n using Node.parts_induction with
  | list items ih =>
    intro owner position
    rw [unfold_list]
    exact Node.reachedKeys_mapInside fun position n hn => ih n hn owner position
  | record r ih =>
    intro owner position
    have hkey := e.resolveOwner_key r owner
    rcases hr : e.resolveOwner r owner with ⟨r', below⟩
    rw [hr] at hkey
    obtain ⟨rendering, mixins, hdressed⟩ := e.dressed_eq f position below r'
    rw [unfold_record hr, Node.reachedKeys_record, Node.reachedKeys_record, hdressed,
      Node.reachedKeys_mapInside fun position n hn => ih n hn below position,
      Node.reachedKeys_flattenContent]
    exact congrArg (· :: _) hkey
  | other n hn =>
    intro owner position
    rw [unfold_of_not_isInner hn]

/-- Engines with the same rules give the same tree. -/
theorem unfold_congr {e' : Engine σ} (he : e'.rulebook = e.rulebook) (f : Dressing) (n : Node) :
    ∀ owner position, e'.unfold f owner position n = e.unfold f owner position n := by
  have howner : ∀ r owner, e'.resolveOwner r owner = e.resolveOwner r owner := by
    intro r owner
    unfold resolveOwner defaultVariantOf
    rw [he]
  have hdressed : ∀ position owner r,
      e'.dressed f position owner r = e.dressed f position owner r := by
    intro position owner r
    unfold dressed dressMatched
    rw [he]
  induction n using Node.parts_induction with
  | list items ih =>
    intro owner position
    rw [unfold_list, unfold_list]
    exact Node.mapInside_congr fun position n hn => ih n hn owner position
  | record r ih =>
    intro owner position
    rcases hr : e.resolveOwner r owner with ⟨r', below⟩
    rw [unfold_record hr, unfold_record ((howner r owner).trans hr), hdressed,
      Node.mapInside_congr fun position n hn => ih n hn below position]
  | other n hn =>
    intro owner position
    rw [unfold_of_not_isInner hn, unfold_of_not_isInner hn]

/-! ### Rules that settle -/

/-- Rules settle: on a record as an expansion leaves it, at the same position, the rules that it is
matched by change nothing, unless it is stopped. Identities in mixins do not count. -/
def Settles (e : Engine σ) (f : Dressing) : Prop :=
  ∀ owner position (r left : Record) (component : String),
    (Node.record left).veiled = (e.unfold f owner position (.record r)).veiled →
      left.component = some component → left.rendering.stopped = false →
        (e.dressMatched f position left component left.variant).masked = left.masked

/-- A record that matches what plain recursion leaves of another one has the component and the
variant that the other came to, what its rules left, and what became of its flattened content. -/
theorem left_of_veiled {owner : Owner} {position : Position} {r left : Record}
    (ht : (Node.record left).veiled = (e.unfold f owner position (.record r)).veiled) :
    ∃ r' below, e.resolveOwner r owner = (r', below) ∧
      left.component = r'.component ∧ left.part = r'.part ∧ left.variant = r'.variant ∧
      left.masked =
        ({ e.dressed f position below r' with content := left.content } : Record).masked ∧
      left.content.veiled = (r.content.flattenContent.mapInside (e.unfold f below)).veiled := by
  rcases hr : e.resolveOwner r owner with ⟨r', below⟩
  rw [unfold_record hr, Node.veiled_record, Node.veiled_record, Node.record.injEq] at ht
  have hmasked : left.masked =
      ({ e.dressed f position below r' with content := left.content } : Record).masked :=
    congrArg (fun m : Record => { m with content := left.content }) ht
  have hfields := hmasked
  obtain ⟨rendering, mixins, hdressed⟩ := e.dressed_eq f position below r'
  rw [hdressed] at hfields
  exact ⟨r', below, rfl, congrArg (·.component) hfields, congrArg (·.part) hfields,
    congrArg (·.variant) hfields, hmasked, congrArg (·.content) ht⟩

/-- If the rules settle, plain recursion leaves its own result as it is. -/
theorem unfold_unfolded (hs : e.Settles f) (n : Node) : ∀ owner position (t : Node),
    t.veiled = (e.unfold f owner position n).veiled →
      (e.unfold f owner position t).veiled = t.veiled := by
  induction n using Node.parts_induction with
  | list items ih =>
    intro owner position t ht
    rw [unfold_list] at ht
    obtain ⟨others, rfl, -⟩ := Node.exists_list_of_veiled ht
    rw [unfold_list]
    exact Node.mapInside_of_veiled (isList_unfold owner) ht
      fun position n hn => ih n hn owner position
  | record r ih =>
    intro owner position t ht
    obtain ⟨left, rfl⟩ : ∃ left, t = .record left := by
      rw [unfold_record rfl, Node.veiled_record] at ht
      cases t with
      | record left => exact ⟨left, rfl⟩
      | _ => cases ht
    obtain ⟨r', below, hr, hcomponent, hpart, hvariant, -, hcontent⟩ := left_of_veiled ht
    have hagain := resolveOwner_again hr hcomponent hpart hvariant
    have hflat := Node.flattenContent_of_veiled (isList_unfold below) hcontent
    have hinside := Node.mapInside_of_veiled (isList_unfold below) hcontent
      fun position n hn => ih n hn below position
    have hmasked : (e.dressed f position below left).masked = left.masked := by
      unfold dressed
      split
      · rfl
      · rename_i component hc
        split
        · rfl
        · rename_i hstopped
          rw [resolveOwner_owner hagain (by rw [hc]; rfl)]
          exact hs owner position r left component ht hc (Bool.eq_false_iff.mpr hstopped)
    rw [unfold_record hagain, hflat, Node.veiled_record, Node.veiled_record, hinside]
    exact congrArg (fun m : Record => Node.record { m with content := left.content.veiled }) hmasked
  | other n hn =>
    intro owner position t ht
    rw [unfold_of_not_isInner hn] at ht
    have hsame : t = n := by
      cases n <;> cases hn <;> cases t <;> first | exact ht | cases ht
    rw [hsame, unfold_of_not_isInner hn]

/-! ### Rules that do not look at the content -/

/-- Rules that are left the same record but for identities in mixins leave the same. -/
theorem dressMatched_masked {r r' : Record} (h : r.masked = r'.masked) (position : Position)
    (component : String) (variant : Option String) :
    (e.dressMatched f position r component variant).masked =
      (e.dressMatched f position r' component variant).masked := by
  have hpart : r.part = r'.part := congrArg (·.part) h
  unfold dressMatched
  rw [hpart]
  split
  · exact h
  · exact Record.dressAll_masked position _ h

theorem dressMatched_content (hf : f.IgnoresContent) (position : Position) (r : Record)
    (content : Node) (component : String) (variant : Option String) :
    e.dressMatched f position { r with content } component variant =
      { e.dressMatched f position r component variant with content } := by
  unfold dressMatched
  dsimp only
  split
  · rfl
  · exact hf.dressAll position content _ r

/-- A record that its rules have not stopped has been dressed by all rules that it is matched by. -/
theorem dressed_of_unstopped {position : Position} {owner : Owner} {r : Record} {component : String}
    (hc : r.component = some component)
    (h : (e.dressed f position owner r).rendering.stopped = false) :
    e.dressed f position owner r = e.dressMatched f position r component owner.variant := by
  unfold dressed at h ⊢
  rw [hc] at h ⊢
  dsimp only at h ⊢
  split at h
  · rename_i hstopped
    rw [h] at hstopped
    cases hstopped
  · rename_i hstopped
    exact if_neg hstopped

/-- Rules are idempotent: on a record that they have just left without stopping it, at the same
position, the rules that it is matched by change nothing. -/
def Idempotent (e : Engine σ) (f : Dressing) : Prop :=
  ∀ position (r : Record) component variant,
    (e.dressMatched f position r component variant).rendering.stopped = false →
      (e.dressMatched f position (e.dressMatched f position r component variant) component
        variant).masked = (e.dressMatched f position r component variant).masked

/-- Idempotent rules settle if they do not look at the content. -/
theorem Idempotent.settles (hagain : e.Idempotent f) (hf : f.IgnoresContent) : e.Settles f := by
  intro owner position r left component ht hc hstopped
  obtain ⟨r', below, hr, hcomponent, -, hvariant, hmasked, -⟩ := left_of_veiled ht
  have hc' : r'.component = some component := hcomponent ▸ hc
  have hbelow : left.variant = below.variant := by
    rw [hvariant, resolveOwner_owner hr (by rw [hc']; rfl)]
  have hstopped' : (e.dressed f position below r').rendering.stopped = false :=
    (congrArg (·.rendering.stopped) hmasked).symm.trans hstopped
  have hmatched := dressed_of_unstopped hc' hstopped'
  rw [hbelow, dressMatched_masked hmasked, hmasked, dressMatched_content hf, hmatched]
  exact congrArg (fun m : Record => { m with content := left.content })
    (hagain position r' component below.variant (hmatched ▸ hstopped'))

/-- A single rule is idempotent if it changes nothing on a record that it has just left without
stopping it. -/
theorem idempotent_of_single (hb : e.rulebook.Built) (hone : e.rulebook.rules.length = 1)
    (hagain : ∀ position (r : Record), (r.dress f 0 position).rendering.stopped = false →
      ((r.dress f 0 position).dress f 0 position).masked = (r.dress f 0 position).masked) :
    e.Idempotent f := by
  intro position r component variant hstopped
  unfold dressMatched at hstopped ⊢
  cases hr : e.rulebook.resolve component variant r.part with
  | none => simp only [hr]
  | some found =>
    obtain ⟨s, rules⟩ := found
    obtain rfl : rules = [0] := hb.resolve_of_single hone hr
    simp only [hr, Record.dressAll_singleton] at hstopped ⊢
    have hpart : (r.dress f 0 position).part = r.part := rfl
    simp only [hpart, hr, Record.dressAll_singleton]
    exact hagain position r hstopped

/-! ### Expanding again -/

/-- If there are no rules, they settle and write nothing at all. -/
theorem settles_of_no_rules (hb : e.rulebook.Built) (h : e.rulebook.rules = []) :
    e.Decorates f ∧ e.Settles f := by
  refine ⟨fun rule body hbody => ?_, fun owner position r left component _ _ _ => ?_⟩
  · rw [Rulebook.body?, h] at hbody
    cases hbody
  · rw [dressMatched, hb.resolve_of_no_rules h]

/-- Expanding an expanded tree changes neither the tree nor its markup, if the guard is off, the
records of the tree that it came from have different identities, and there are no rules, or the
rules only decorate and settle. For rules that do not look at the content it is enough that they are
idempotent. The engine may have given out identifiers in between. The trees are the same but for
identities, so they are equal unless something in them is not a number. -/
theorem expand_again (hb : e.rulebook.Built) (hg : e.options.divergenceGuard = false)
    (hrules : e.rulebook.rules = [] ∨
      ∃ f, e.Decorates f ∧ (e.Settles f ∨ e.Idempotent f ∧ f.IgnoresContent))
    (nextKey : Key) (memory : σ) {root : Node} (hk : root.keys.Nodup) :
    ∃ x tree, e.EndsWith nextKey memory root x ∧ x.answer = .ok tree ∧
      ∀ nextId nextKey' memory', ∃ y again,
        ({ e with nextId } : Engine σ).EndsWith nextKey' memory' tree y ∧ y.answer = .ok again ∧
          again.anonymous = tree.anonymous ∧
          (tree.DataDistinct → (again.same tree = true ↔ ¬tree.HasNaN)) ∧
          y.markup = x.markup := by
  obtain ⟨f, hf, hs⟩ : ∃ f, e.Decorates f ∧ e.Settles f := by
    rcases hrules with hnone | ⟨f, hf, hs | ⟨hi, hc⟩⟩
    · exact ⟨fun _ _ r => (r.rendering, r.mixins), settles_of_no_rules hb hnone⟩
    · exact ⟨f, hf, hs⟩
    · exact ⟨f, hf, hi.settles hc⟩
  obtain ⟨x, tree, hx, hanswer, htree⟩ :=
    expand_unfolds hb hg hf nextKey memory (hk.sublist root.reachedKeys_sublist)
  -- the records in reach have kept their identities, so they are still different
  have hkeys : tree.reachedKeys.Nodup := by
    rw [Node.reachedKeys_of_veiled htree, reachedKeys_unfold]
    exact hk.sublist root.reachedKeys_sublist
  refine ⟨x, tree, hx, hanswer, fun nextId nextKey' memory' => ?_⟩
  let later : Engine σ := { e with nextId }
  obtain ⟨y, again, hy, hanswer', hagain⟩ :=
    expand_unfolds (e := later) hb hg hf nextKey' memory' hkeys
  have hlater : later.rulebook = e.rulebook := rfl
  rw [unfold_congr hlater, unfold_unfolded hs root {} (.listed 0 1) tree htree] at hagain
  have hanonymous := Node.anonymous_of_veiled hagain
  refine ⟨y, again, hy, hanswer', hanonymous, fun hdistinct => ?_, ?_⟩
  · rw [Node.same_of_anonymous hanonymous tree]
    exact tree.same_self_iff hdistinct
  · rw [Expansion.markup, Expansion.markup, hanswer, hanswer']
    exact congrArg Except.ok (Markup.render_of_anonymous hanonymous)

end Engine

/-- A rule that makes an item of a list a list element with one mixin, and stops a record that is
the whole content. -/
def RuleM.tab : RuleM Unit (Option Node) :=
  .look fun c => match c.position, c.record.mixins with
    | .listed .., [] =>
      .issue (.record { Record.blank with component := some "focus" }) fun t =>
        .write (.mixin t) (.write (.tag "li") (.done none))
    | .listed .., _ => .write (.tag "li") (.done none)
    | .alone, _ => .write .stop (.done none)

/-- An engine with this rule for tabs, which are wide if nothing else is said. -/
def Engine.tabs : Engine Unit where
  rulebook := ((({} : Rulebook Unit).register [⟨"tab", .any, none⟩] .tab).1).setDefaultVariant
    "tab" "wide"

/-- The rule as a function. -/
def Dressing.tabs : Dressing
  | _, .listed .., r =>
    (r.rendering.write (.tag "li"), match r.mixins with
      | [] => [.record { Record.blank with component := some "focus" }]
      | mixins => mixins)
  | _, .alone, r => (r.rendering.write .stop, r.mixins)

theorem Engine.tabs_built : tabs.rulebook.Built := .setDefaultVariant (.register .empty _ _) _ _

theorem Engine.tabs_decorates : tabs.Decorates .tabs := by
  intro rule body hb run position r w
  match rule with
  | 0 =>
    obtain rfl : RuleM.tab = body := Option.some.inj hb
    obtain ⟨key, component, part, variant, params, content, mixins, rendering⟩ := r
    have hmixins := (Node.map_anonymous_anonymous mixins).symm
    cases position with
    | alone => cases mixins <;> exact ⟨_, _, rfl, Record.masked_eq_dress rfl rfl hmixins⟩
    | listed =>
      cases mixins with
      | nil => exact ⟨_, _, rfl, Record.masked_eq_dress rfl rfl rfl⟩
      | cons => exact ⟨_, _, rfl, Record.masked_eq_dress rfl rfl hmixins⟩
  | _ + 1 => cases hb

theorem Dressing.tabs_ignoresContent : Dressing.tabs.IgnoresContent := by
  intro rule position r content
  cases position <;> rfl

theorem Engine.tabs_idempotent : tabs.Idempotent .tabs := by
  refine idempotent_of_single tabs_built rfl fun position r hstopped => ?_
  obtain ⟨key, component, part, variant, params, content, mixins, rendering⟩ := r
  cases position with
  | alone => cases hstopped
  | listed =>
    cases mixins with
    | nil => rfl
    | cons n ns =>
      simp [Record.dress, Record.masked, Dressing.tabs, Rendering.write, Node.anonymous_anonymous]

/-- Tabs in a list inside of the content, one of which has a tab as its whole content. -/
def Node.tabBar : Node :=
  let tab (key : Key) (content : Node) : Node :=
    .record { Record.blank with key, component := some "tab", content }
  .record { Record.blank with
    key := 1
    content := .list [.list [tab 2 .absent, tab 3 (tab 4 .absent)], .text "and"] }

/-- After the first time the list is flat, three tabs are wide, two have a mixin, and one is
stopped; nothing changes any more. -/
theorem Engine.expand_again_tabs : tabs.rulebook.Built ∧
    tabs.options.divergenceGuard = false ∧ tabs.Decorates .tabs ∧ tabs.Idempotent .tabs ∧
    Dressing.tabs.IgnoresContent ∧ Node.tabBar.keys.Nodup ∧
    ∃ x tree, tabs.EndsWith 5 () .tabBar x ∧ x.answer = .ok tree ∧
      ∀ nextId nextKey memory, ∃ y again,
        ({ tabs with nextId } : Engine Unit).EndsWith nextKey memory tree y ∧
          y.answer = .ok again ∧ again.anonymous = tree.anonymous ∧
          (tree.DataDistinct → (again.same tree = true ↔ ¬tree.HasNaN)) ∧
          y.markup = x.markup := by
  have hk : Node.tabBar.keys.Nodup := by decide
  have hrules : tabs.Idempotent .tabs ∧ Dressing.tabs.IgnoresContent :=
    ⟨tabs_idempotent, Dressing.tabs_ignoresContent⟩
  exact ⟨tabs_built, rfl, tabs_decorates, hrules.1, hrules.2, hk,
    expand_again tabs_built rfl (Or.inr ⟨_, tabs_decorates, Or.inr hrules⟩) 5 () hk⟩

/-- The tag for a record with this content: it depends on whether the content has a tag. -/
def Node.bulletTag : Node → String
  | .record r => if r.rendering.tag.isSome then "ol" else "ul"
  | _ => "ul"

/-- An engine with one rule, which looks at the content of a box to choose its tag. -/
def Engine.bullets : Engine Unit where
  rulebook := (({} : Rulebook Unit).register [⟨"box", .none, none⟩]
    (.look fun c => .write (.tag c.record.content.bulletTag) (.done none))).1

/-- The rule as a function. -/
def Dressing.bullets : Dressing := fun _ _ r =>
  (r.rendering.write (.tag r.content.bulletTag), r.mixins)

theorem Engine.bullets_built : bullets.rulebook.Built := .register .empty _ _

theorem Engine.bullets_decorates : bullets.Decorates .bullets := by
  intro rule body hb run position r w
  match rule with
  | 0 =>
    obtain rfl := Option.some.inj hb
    have hmixins := (Node.map_anonymous_anonymous r.mixins).symm
    exact ⟨_, _, rfl, Record.masked_eq_dress rfl rfl hmixins⟩
  | _ + 1 => cases hb

theorem Engine.bullets_idempotent : bullets.Idempotent .bullets := by
  refine idempotent_of_single bullets_built rfl fun position r hstopped => ?_
  simp [Record.dress, Record.masked, Dressing.bullets, Rendering.write, Node.anonymous_anonymous]

/-- A box in a box, and this engine twice: when the rule comes by the outer box again, the inner one
has got its tag, and so the outer one gets another. And a tree that is not a number is not equal to
itself, although it stays what it is. So being idempotent is not enough, and equality is not what
holds. -/
theorem Engine.expand_again_bullets :
    (¬ ∀ (e : Engine Unit) (f : Dressing), e.rulebook.Built → e.options.divergenceGuard = false →
      e.Decorates f → e.Idempotent f → ∀ (fuel : Nat) (nextKey : Key) (root tree again : Node),
        root.keys.Nodup → (e.expand fuel nextKey () root).answer = .ok tree →
          (e.expand fuel nextKey () tree).answer = .ok again →
            Markup.render again = Markup.render tree) ∧
    ¬ ∀ (e : Engine Unit), e.rulebook.rules = [] →
      ∀ (fuel : Nat) (nextKey : Key) (root tree again : Node),
        root.keys.Nodup → (e.expand fuel nextKey () root).answer = .ok tree →
          (e.expand fuel nextKey () tree).answer = .ok again → again.same tree = true := by
  constructor
  · intro h
    let box (key : Key) (content : Node) : Node :=
      .record { Record.blank with key, component := some "box", content }
    let root : Node := box 1 (box 2 .absent)
    have hmarkup : (bullets.expand 4 3 () root).answer.toOption.bind (fun tree =>
        (bullets.expand 4 3 () tree).answer.toOption.map fun again =>
          decide (Markup.render again = Markup.render tree)) = some false := by
      decide +kernel
    obtain ⟨tree, htree, hmarkup⟩ := Option.bind_eq_some_iff.mp hmarkup
    obtain ⟨again, hagain, hmarkup⟩ := Option.map_eq_some_iff.mp hmarkup
    exact of_decide_eq_false hmarkup (h bullets .bullets bullets_built rfl bullets_decorates
      bullets_idempotent 4 3 root tree again (by decide) (Expansion.answer_eq_ok htree)
      (Expansion.answer_eq_ok hagain))
  · intro h
    have hsame := h {} rfl 2 1 (.number .nan) (.number .nan) (.number .nan) (by decide) rfl rfl
    exact absurd hsame (by decide)

end ComponentTree
