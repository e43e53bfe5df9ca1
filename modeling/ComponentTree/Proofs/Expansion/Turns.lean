import ComponentTree.Proofs.Expansion.Moves
import ComponentTree.Proofs.Tree.Path

/-!
The turns of a pass.

A pass takes one site after the other off its queue and does one of five things with it, its deed.
Main statements: a step has an answer exactly if there is a deed that leads to it (`step_does`,
`Does.step_eq`), and a pass that ends has reached its end by turns (`runPass_reaches`). What holds
of a pass at every turn is proved from the deeds alone.
-/

namespace ComponentTree

variable {σ : Type}

/-- What a pass does with a site. -/
inductive Deed where
  /-- The path of the site led nowhere. -/
  | missed
  /-- There was a list, and its items were queued. -/
  | opened (items : List Node)
  /-- There was a node into which expansion does not go. -/
  | passed (node : Node)
  /-- There was a record, which stays, as its rules left it, and hands down `owner`. -/
  | kept (found left : Record) (owner : Owner)
  /-- There was a record, which a rule replaced after it was left like that. -/
  | replaced (found left : Record) (replacement : Node) (owner : Owner)

/-- The record that was found and what the rules left of it. -/
def Deed.leaves? : Deed → Option (Record × Record)
  | .kept found left _ | .replaced found left _ _ => some (found, left)
  | .missed | .opened _ | .passed _ => none

theorem Site.count_path (site : Site) : site.count.path = site.path := rfl

/-- The pass after a deed, the site being off the queue. -/
def Pass.after (pass : Pass) (site : Site) : Deed → Pass
  | .missed => pass
  | .opened items => pass.enqueue (Site.ofItems site.path site.owner items)
  | .passed _ => pass
  | .kept _ left owner => pass.keep site left owner
  | .replaced _ left replacement owner => pass.replace site.count left replacement owner

namespace Engine

/-- The world in which the rules of a record with a component are looked for. -/
def arrive (pass : Pass) (site : Site) (r : Record) (owner : Owner) (component : String)
    (w : World σ) : World σ :=
  w.log (.visited pass.number site.path r.key component owner.variant r.part)

/-- What a step can do with a site in a world, and the world it leaves. The record that is found
gets its owner first; without a component it stays as it is, and if it was stopped before, too. -/
inductive Does (e : Engine σ) (run : Pass → Run σ Pass) (pass : Pass) (site : Site) (w : World σ) :
    Deed → World σ → Prop
  | missed (h : pass.tree.at? site.path = none) : Does e run pass site w .missed w
  | opened {items : List Node} (h : pass.tree.at? site.path = some (.list items)) :
      Does e run pass site w (.opened items) w
  | passed {node : Node} (h : pass.tree.at? site.path = some node) (hn : node.isInner = false) :
      Does e run pass site w (.passed node) w
  | plain {found r : Record} {owner : Owner} (h : pass.tree.at? site.path = some (.record found))
      (hr : e.resolveOwner found site.owner = (r, owner)) (hc : r.component = none) :
      Does e run pass site w (.kept found r owner) w
  | stopped {found r : Record} {owner : Owner} {component : String}
      (h : pass.tree.at? site.path = some (.record found))
      (hr : e.resolveOwner found site.owner = (r, owner)) (hc : r.component = some component)
      (hg : e.options.refuses site.count.rounds = false) (hs : r.rendering.stopped = true) :
      Does e run pass site w (.kept found r owner) (arrive pass site r owner component w)
  | kept {found r left : Record} {owner : Owner} {component : String} {w' : World σ}
      (h : pass.tree.at? site.path = some (.record found))
      (hr : e.resolveOwner found site.owner = (r, owner)) (hc : r.component = some component)
      (hg : e.options.refuses site.count.rounds = false) (hs : r.rendering.stopped = false)
      (hv : e.applyRules run pass.number site.count r component owner.variant
        (arrive pass site r owner component w) = (.ok (.kept left), w')) :
      Does e run pass site w (.kept found left owner) w'
  | replaced {found r left : Record} {replacement : Node} {owner : Owner} {component : String}
      {w' : World σ} (h : pass.tree.at? site.path = some (.record found))
      (hr : e.resolveOwner found site.owner = (r, owner)) (hc : r.component = some component)
      (hg : e.options.refuses site.count.rounds = false) (hs : r.rendering.stopped = false)
      (hv : e.applyRules run pass.number site.count r component owner.variant
        (arrive pass site r owner component w) = (.ok (.replaced left replacement), w')) :
      Does e run pass site w (.replaced found left replacement owner) w'

variable {e : Engine σ} {run : Pass → Run σ Pass} {pass pass' : Pass} {site : Site}
  {w w' : World σ}

/-- The part of a visit that comes after the owner is settled. -/
theorem visit_apply {found r : Record} {owner : Owner}
    (hr : e.resolveOwner found site.owner = (r, owner)) :
    e.visit run pass site found w = match r.component with
      | none => (.ok (pass.keep site r owner), w)
      | some component =>
        let w := arrive pass site r owner component w
        if e.options.refuses site.count.rounds then
          (.error (.failed (.divergence (Selector.label component r.part)
            e.options.divergenceLimit)), w)
        else if r.rendering.stopped then (.ok (pass.keep site r owner), w)
        else match e.applyRules run pass.number site.count r component owner.variant w with
          | (.ok (.kept left), w) => (.ok (pass.keep site left owner), w)
          | (.ok (.replaced left tree), w) => (.ok (pass.replace site.count left tree owner), w)
          | (.error s, w) => (.error s, w) := by
  unfold visit
  rw [hr]
  cases hc : r.component with
  | none => simp only [hc]; rfl
  | some component =>
    simp only [hc, Run.bind_apply, Run.log_apply]
    split
    · rfl
    · split
      · rfl
      · rw [Run.bind_apply, Site.count_path]
        unfold arrive
        generalize e.applyRules run pass.number site.count r component owner.variant _ = x
        rcases x with ⟨_ | (_ | _), _⟩ <;> rfl

/-- A step with an answer has done something with the site. -/
theorem step_does (h : e.step run pass site w = (.ok pass', w')) :
    ∃ deed, e.Does run pass site w deed w' ∧ pass' = pass.after site deed := by
  unfold step at h
  cases ht : pass.tree.at? site.path with
  | none => rw [ht] at h; cases h; exact ⟨.missed, .missed ht, rfl⟩
  | some node =>
    rw [ht] at h
    cases node with
    | list items => cases h; exact ⟨.opened items, .opened ht, rfl⟩
    | record found =>
      change e.visit run pass site found w = _ at h
      rcases hr : e.resolveOwner found site.owner with ⟨r, owner⟩
      rw [visit_apply hr] at h
      cases hc : r.component with
      | none => simp only [hc] at h; cases h; exact ⟨_, .plain ht hr hc, rfl⟩
      | some component =>
        simp only [hc] at h
        split at h
        · cases h
        rename_i hg
        rw [Bool.not_eq_true] at hg
        split at h
        · rename_i hs; cases h; exact ⟨_, .stopped ht hr hc hg hs, rfl⟩
        rename_i hs
        rw [Bool.not_eq_true] at hs
        rcases hv : e.applyRules run pass.number site.count r component owner.variant
          (arrive pass site r owner component w) with ⟨_ | (_ | _), _⟩ <;> rw [hv] at h <;> cases h
        · exact ⟨_, .kept ht hr hc hg hs hv, rfl⟩
        · exact ⟨_, .replaced ht hr hc hg hs hv, rfl⟩
    | _ => cases h; exact ⟨.passed _, .passed ht rfl, rfl⟩

/-- A record that is found is kept or replaced. -/
theorem Does.of_record {deed : Deed} {found : Record} (h : e.Does run pass site w deed w')
    (hf : pass.tree.at? site.path = some (.record found)) :
    (∃ left owner, deed = .kept found left owner) ∨
      ∃ left replacement owner, deed = .replaced found left replacement owner := by
  cases h with
  | missed h => rw [h] at hf; cases hf
  | opened h => rw [h] at hf; cases hf
  | passed h hn => rw [h] at hf; cases hf; cases hn
  | plain h => rw [h] at hf; cases hf; exact Or.inl ⟨_, _, rfl⟩
  | stopped h => rw [h] at hf; cases hf; exact Or.inl ⟨_, _, rfl⟩
  | kept h => rw [h] at hf; cases hf; exact Or.inl ⟨_, _, rfl⟩
  | replaced h => rw [h] at hf; cases hf; exact Or.inr ⟨_, _, _, rfl⟩

/-- What can be done with a site is what the step does. -/
theorem Does.step_eq {deed : Deed} (h : e.Does run pass site w deed w') :
    e.step run pass site w = (.ok (pass.after site deed), w') := by
  unfold step
  cases h with
  | missed h => rw [h]; rfl
  | opened h => rw [h]; rfl
  | @passed node h hn => rw [h]; cases node <;> first | rfl | cases hn
  | plain h hr hc => rw [h]; dsimp only; rw [visit_apply hr, hc]; rfl
  | stopped h hr hc hg hs =>
    rw [h]; dsimp only; rw [visit_apply hr, hc]; simp only [hg, hs]; rfl
  | kept h hr hc hg hs hv =>
    rw [h]; dsimp only; rw [visit_apply hr, hc]; simp only [hg, hs, hv]; rfl
  | replaced h hr hc hg hs hv =>
    rw [h]; dsimp only; rw [visit_apply hr, hc]; simp only [hg, hs, hv]; rfl

end Engine

/-! ### Sites of lists and of contents -/

namespace Site

theorem mem_ofItems {base : Path} {owner : Owner} {items : List Node} {s : Site} :
    s ∈ ofItems base owner items ↔ ∃ i item, items[i]? = some item ∧ item.isInner = true ∧
      s = ⟨base ++ [.item i], .listed i items.length, owner, 0⟩ := by
  simp only [ofItems, List.mem_filterMap, Prod.exists, List.mem_zipIdx_iff_getElem?]
  constructor
  · rintro ⟨item, i, hi, h⟩
    split at h
    · rename_i hn
      exact ⟨i, item, hi, hn, by simpa using h.symm⟩
    · cases h
  · rintro ⟨i, item, hi, hn, rfl⟩
    exact ⟨item, i, hi, by simp [hn]⟩

theorem mem_ofContent {base : Path} {owner : Owner} {content : Node} {s : Site}
    (h : s ∈ ofContent base owner content) :
    (∃ items, content = .list items ∧ s ∈ ofItems (base ++ [.content]) owner items) ∨
      s = ⟨base ++ [.content], .alone, owner, 0⟩ := by
  cases content with
  | list items => exact Or.inl ⟨items, rfl, h⟩
  | record r => exact Or.inr (by simpa [ofContent, Node.isInner] using h)
  | _ => simp [ofContent, Node.isInner] at h

theorem ofContent_of_isInner {base : Path} {owner : Owner} {content : Node}
    (hl : content.isList = false) (hn : content.isInner = true) :
    ofContent base owner content = [⟨base ++ [.content], .alone, owner, 0⟩] := by
  cases content <;> simp_all [ofContent, Node.isInner, Node.isList]

/-- Different items of a list are apart. -/
theorem ofItems_pairwise (base : Path) (owner : Owner) (items : List Node) :
    (ofItems base owner items).Pairwise fun s t => Path.Apart s.path t.path := by
  have hi : items.zipIdx.Pairwise fun x y => x.2 ≠ y.2 := by
    rw [← List.pairwise_map, List.zipIdx_map_snd]
    exact List.nodup_range'
  refine hi.filterMap _ fun x y hxy s hs t ht => ?_
  simp only [Option.ite_none_right_eq_some, Option.some.injEq] at hs ht
  obtain ⟨-, rfl⟩ := hs
  obtain ⟨-, rfl⟩ := ht
  have apart : ∀ i j : Nat, i ≠ j → ¬ base ++ [.item i] <+: base ++ [.item j] := by
    intro i j hij h
    rw [List.prefix_append_right_inj] at h
    simp [hij] at h
  exact ⟨apart _ _ hxy, apart _ _ hxy.symm⟩

/-- A record in a list lies below one of the sites of its items. -/
theorem ofItems_covers {base q : Path} {owner : Owner} {items : List Node} {r : Record}
    (h : Node.at? q (.list items) = some (.record r)) :
    ∃ s ∈ ofItems base owner items, s.path <+: base ++ q := by
  obtain _ | ⟨edge, q⟩ := q
  · rw [Node.at?_nil] at h; cases h
  rcases Node.at?_cons_eq_some h with ⟨i, _, item, rfl, hl, hi, hq⟩ | ⟨_, _, hl, _⟩ <;> cases hl
  refine ⟨_, mem_ofItems.mpr ⟨i, item, hi, Node.isInner_of_at?_record hq, rfl⟩, ?_⟩
  exact ⟨q, by rw [List.append_assoc]; rfl⟩

/-- A record in the content of a record lies below one of the sites of the content. -/
theorem ofContent_covers {base q : Path} {owner : Owner} {content : Node} {r : Record}
    (h : content.at? q = some (.record r)) :
    ∃ s ∈ ofContent base owner content, s.path <+: base ++ .content :: q := by
  have below : base ++ Edge.content :: q = (base ++ [.content]) ++ q := by simp
  rw [below]
  cases hl : content.isList with
  | true =>
    cases content with
    | list items => exact ofItems_covers h
    | _ => cases hl
  | false =>
    rw [ofContent_of_isInner hl (Node.isInner_of_at?_record h)]
    exact ⟨_, List.mem_singleton_self _, List.prefix_append ..⟩

end Site

/-! ### What a deed leaves at the site and in the queue -/

/-- Whether a pass goes along a path: a pass for the root alone goes into no content. -/
def Path.InScope (rootOnly : Bool) (path : Path) : Prop :=
  rootOnly = true → Edge.content ∉ path

/-- The record that stays after a record was kept: its content is flattened, unless content is left
alone. -/
def Record.settledIn (rootOnly : Bool) (r : Record) : Record :=
  if rootOnly then r else { r with content := r.content.flattenContent }

theorem Record.settledIn_eq (rootOnly : Bool) (r : Record) :
    r.settledIn rootOnly = { r with content := (r.settledIn rootOnly).content } := by
  unfold settledIn
  split
  · cases r; rfl
  · rfl

namespace Deed

/-- The node that is at the site after the deed, if there is one. -/
def node? (rootOnly : Bool) : Deed → Option Node
  | .missed => none
  | .opened items => some (.list items)
  | .passed node => some node
  | .kept _ left _ => some (.record (left.settledIn rootOnly))
  | .replaced _ _ replacement _ => some replacement

/-- The sites that the deed adds to the queue. -/
def sites (rootOnly : Bool) (site : Site) : Deed → List Site
  | .missed | .passed _ => []
  | .opened items => Site.ofItems site.path site.owner items
  | .kept _ left owner =>
    if rootOnly then [] else Site.ofContent site.path owner left.content.flattenContent
  | .replaced _ _ _ owner => [{ site.count with owner }]

/-- A deed queues sites below its own only. -/
theorem sites_below {rootOnly : Bool} {site s : Site} {deed : Deed}
    (hs : s ∈ deed.sites rootOnly site) : site.path <+: s.path := by
  have items : ∀ {base owner items}, site.path <+: base →
      s ∈ Site.ofItems base owner items → site.path <+: s.path := by
    intro base owner items hb hs
    obtain ⟨i, _, _, _, rfl⟩ := Site.mem_ofItems.mp hs
    exact hb.trans (List.prefix_append _ _)
  cases deed with
  | missed => cases hs
  | passed => cases hs
  | opened => exact items List.prefix_rfl hs
  | kept found left owner =>
    simp only [sites] at hs
    split at hs
    · cases hs
    · rcases Site.mem_ofContent hs with ⟨_, -, hs⟩ | rfl
      · exact items (List.prefix_append _ _) hs
      · exact List.prefix_append _ _
  | replaced =>
    rw [List.mem_singleton.mp hs]
    exact List.prefix_rfl

/-- The sites that a deed queues are apart from each other. -/
theorem sites_pairwise (rootOnly : Bool) (site : Site) (deed : Deed) :
    (deed.sites rootOnly site).Pairwise fun s t => Path.Apart s.path t.path := by
  cases deed with
  | missed => exact .nil
  | passed => exact .nil
  | opened => exact Site.ofItems_pairwise _ _ _
  | kept found left owner =>
    simp only [sites]
    split
    · exact .nil
    · cases left.content.flattenContent with
      | list items => exact Site.ofItems_pairwise _ _ _
      | record => exact List.pairwise_singleton _ _
      | _ => exact .nil
  | replaced => exact List.pairwise_singleton _ _

end Deed

namespace Pass

variable (pass : Pass) (site : Site) (deed : Deed)

theorem after_queue :
    (pass.after site deed).queue = pass.queue ++ deed.sites pass.rootOnly site := by
  cases deed with
  | kept found left owner =>
    simp only [after, keep, Deed.sites]
    split
    · exact (List.append_nil _).symm
    · rfl
  | missed => exact (List.append_nil _).symm
  | passed node => exact (List.append_nil _).symm
  | opened items => rfl
  | replaced found left replacement owner => rfl

theorem after_rootOnly : (pass.after site deed).rootOnly = pass.rootOnly := by
  cases deed <;> try rfl
  simp only [after, keep]
  split <;> rfl

theorem after_number : (pass.after site deed).number = pass.number := by
  cases deed <;> try rfl
  simp only [after, keep]
  split <;> rfl

theorem after_rootKey : (pass.after site deed).rootKey = pass.rootKey := by
  cases deed <;> try rfl
  simp only [after, keep]
  split <;> rfl

/-- A deed leaves the former root alone, unless it is the first to replace the root. -/
theorem after_formerRoot : (pass.after site deed).formerRoot = pass.formerRoot ∨
    ∃ found left, deed.leaves? = some (found, left) ∧ pass.formerRoot = none ∧
      some left.key = pass.rootKey ∧ (pass.after site deed).formerRoot = some left := by
  cases deed with
  | kept found left owner =>
    simp only [after, keep]
    split <;> exact Or.inl rfl
  | replaced found left replacement owner =>
    have hr : (pass.after site (.replaced found left replacement owner)).formerRoot =
        if pass.formerRoot.isNone && some left.key = pass.rootKey then some left
        else pass.formerRoot := rfl
    rw [hr]
    split
    · rename_i h
      simp only [Bool.and_eq_true, Option.isNone_iff_eq_none, decide_eq_true_eq] at h
      exact Or.inr ⟨found, left, rfl, h.1, h.2, rfl⟩
    · exact Or.inl rfl
  | _ => exact Or.inl rfl

theorem after_replaced_formerRoot {found left : Record} (replacement : Node) (owner : Owner)
    (hn : pass.formerRoot = none) (hk : some left.key = pass.rootKey) :
    (pass.after site (.replaced found left replacement owner)).formerRoot = some left := by
  have h : (pass.formerRoot.isNone && decide (some left.key = pass.rootKey)) = true := by
    rw [hn, hk]
    simp
  exact if_pos h

theorem after_kept_tree (found left : Record) (owner : Owner) :
    (pass.after site (.kept found left owner)).tree =
      Node.put (.record (left.settledIn pass.rootOnly)) site.path pass.tree := by
  simp only [after, keep, Record.settledIn]
  split <;> rfl

/-- A deed leaves the tree alone, or it is about a record and puts its node at the site. -/
theorem after_tree : (pass.after site deed).tree = pass.tree ∨
    ∃ node, deed.leaves?.isSome ∧ deed.node? pass.rootOnly = some node ∧
      (pass.after site deed).tree = Node.put node site.path pass.tree := by
  cases deed with
  | kept found left owner =>
    exact Or.inr ⟨_, rfl, rfl, pass.after_kept_tree site found left owner⟩
  | replaced found left replacement owner => exact Or.inr ⟨replacement, rfl, rfl, rfl⟩
  | _ => exact Or.inl rfl

/-- Apart from the site, the tree stays as it is. -/
theorem after_at?_apart {path : Path} (h : Path.Apart site.path path) :
    (pass.after site deed).tree.at? path = pass.tree.at? path := by
  rcases pass.after_tree site deed with ht | ⟨node, -, -, ht⟩ <;> rw [ht]
  exact Node.at?_put_apart node pass.tree h

/-- A record above the site stays the same but for its content, and so does its content unless the
node of the deed is put into it. -/
theorem record_above_after {path rest : Path} {r : Record} (hp : site.path = path ++ rest)
    (hrest : rest ≠ []) (h : (pass.after site deed).tree.at? path = some (.record r)) :
    ∃ r₀, pass.tree.at? path = some (.record r₀) ∧ r = { r₀ with content := r.content } ∧
      (r.content = r₀.content ∨ ∃ rest' node, rest = .content :: rest' ∧ deed.leaves?.isSome ∧
        deed.node? pass.rootOnly = some node ∧ r.content = Node.put node rest' r₀.content) := by
  rcases pass.after_tree site deed with ht | ⟨node, hleaves, hnode, ht⟩ <;> rw [ht] at h
  · exact ⟨r, h, by cases r; rfl, Or.inl rfl⟩
  · rw [hp] at h
    obtain ⟨r₀, h₀, hr, hcontent⟩ := Node.record_put_below hrest h
    refine ⟨r₀, h₀, hr, hcontent.imp id ?_⟩
    rintro ⟨rest', hrest', hput⟩
    exact ⟨rest', node, hrest', hleaves, hnode, hput⟩

end Pass

namespace Engine.Does

variable {e : Engine σ} {run : Pass → Run σ Pass} {pass : Pass} {site : Site} {deed : Deed}
  {w w' : World σ}

/-- The record that a deed is about was found at the site. -/
theorem found (h : e.Does run pass site w deed w') {found left : Record}
    (hl : deed.leaves? = some (found, left)) :
    pass.tree.at? site.path = some (.record found) := by
  cases h <;> cases hl <;> assumption

/-- Unless its path led nowhere, a deed leaves its node at the site. -/
theorem at?_site (h : e.Does run pass site w deed w') (hp : (pass.tree.at? site.path).isSome)
    (q : Path) :
    (pass.after site deed).tree.at? (site.path ++ q) =
      (deed.node? pass.rootOnly).bind (Node.at? q) := by
  have kept : ∀ found left owner, (pass.after site (.kept found left owner)).tree.at?
      (site.path ++ q) = Node.at? q (.record (left.settledIn pass.rootOnly)) := by
    intro found left owner
    rw [Pass.after_kept_tree, Node.at?_put_append _ hp]
  cases h with
  | missed h => rw [h] at hp; cases hp
  | opened h => exact (Node.at?_append pass.tree _ _).trans (by rw [h]; rfl)
  | passed h => exact (Node.at?_append pass.tree _ _).trans (by rw [h]; rfl)
  | plain => exact kept ..
  | stopped => exact kept ..
  | kept => exact kept ..
  | replaced => exact Node.at?_put_append _ hp q

/-- The sites that a deed queues lead somewhere. -/
theorem sites_present (h : e.Does run pass site w deed w')
    (hp : (pass.tree.at? site.path).isSome) {s : Site} (hs : s ∈ deed.sites pass.rootOnly site) :
    ((pass.after site deed).tree.at? s.path).isSome := by
  obtain ⟨q, hq⟩ := Deed.sites_below hs
  rw [← hq, h.at?_site hp]
  cases deed with
  | missed => cases hs
  | passed => cases hs
  | opened items =>
    obtain ⟨i, item, hi, -, rfl⟩ := Site.mem_ofItems.mp hs
    rw [List.append_cancel_left hq]
    simp [Deed.node?, Node.at?_item_list, hi, Node.at?_nil]
  | kept found left owner =>
    simp only [Deed.sites] at hs
    split at hs
    · cases hs
    rename_i hro
    rw [Bool.not_eq_true] at hro
    simp only [Deed.node?, Record.settledIn, hro, Option.bind_some]
    rcases Site.mem_ofContent hs with ⟨items, hc, hs⟩ | rfl
    · obtain ⟨i, item, hi, -, rfl⟩ := Site.mem_ofItems.mp hs
      rw [List.append_assoc] at hq
      rw [List.append_cancel_left hq]
      simp [Node.at?_content_record, hc, Node.at?_item_list, hi, Node.at?_nil]
    · rw [List.append_cancel_left hq]
      simp [Node.at?_content_record, Node.at?_nil]
  | replaced =>
    rw [List.mem_singleton.mp hs] at hq
    rw [List.append_right_eq_self.mp hq]
    simp [Deed.node?, Node.at?_nil]

/-- A record at or below the site lies below one of the sites that the deed queues, or it is the
record that the deed kept. -/
theorem record_covered (h : e.Does run pass site w deed w')
    (hp : (pass.tree.at? site.path).isSome) {q : Path} {r : Record}
    (hq : Path.InScope pass.rootOnly q)
    (hr : (pass.after site deed).tree.at? (site.path ++ q) = some (.record r)) :
    (∃ s ∈ deed.sites pass.rootOnly site, s.path <+: site.path ++ q) ∨
      q = [] ∧ ∃ found left owner, deed = .kept found left owner ∧
        r = left.settledIn pass.rootOnly := by
  rw [h.at?_site hp] at hr
  cases deed with
  | missed => cases hr
  | opened items => exact Or.inl (Site.ofItems_covers hr)
  | passed node =>
    cases h with
    | passed _ hn => rw [Node.isInner_of_at?_record hr] at hn; cases hn
  | replaced => exact Or.inl ⟨_, List.mem_singleton_self _, List.prefix_append ..⟩
  | kept found left owner =>
    simp only [Deed.node?, Option.bind_some] at hr
    obtain _ | ⟨edge, q⟩ := q
    · refine Or.inr ⟨rfl, found, left, owner, rfl, ?_⟩
      rw [Node.at?_nil, Option.some.injEq, Node.record.injEq] at hr
      exact hr.symm
    · rcases Node.at?_cons_eq_some hr with ⟨_, _, _, _, hl, _⟩ | ⟨_, rfl, hl, hr⟩ <;> cases hl
      -- the path goes into the content, so content is not left alone
      have hro : pass.rootOnly = false := by
        cases hb : pass.rootOnly with
        | false => rfl
        | true => exact absurd (List.mem_cons_self ..) (hq hb)
      rw [Record.settledIn, hro] at hr
      rw [Deed.sites, hro]
      exact Or.inl (Site.ofContent_covers hr)

end Engine.Does

/-! ### The course of a pass -/

/-- A site that was looked at, and what was done with it. -/
structure Turn where
  site : Site
  deed : Deed

namespace Engine

/-- The pass that began as `pass₀` in the world `w₀` has come to `pass` in the world `w` by `turns`,
the latest first. Passes that rules asked for had fewer than `limit` steps each. -/
inductive Reaches (e : Engine σ) (limit : Nat) (pass₀ : Pass) (w₀ : World σ) :
    List Turn → Pass → World σ → Prop
  | start : Reaches e limit pass₀ w₀ [] pass₀ w₀
  | turn {turns : List Turn} {pass : Pass} {w w' : World σ} {site : Site} {queue : List Site}
      {fuel : Nat} {deed : Deed} (h : Reaches e limit pass₀ w₀ turns pass w)
      (hq : pass.queue = site :: queue) (hf : fuel < limit)
      (hd : e.Does (e.runPass fuel) { pass with queue } site w deed w') :
      Reaches e limit pass₀ w₀ (⟨site, deed⟩ :: turns) (Pass.after { pass with queue } site deed) w'

theorem runPass_done {e : Engine σ} {pass : Pass} (hq : pass.queue = []) (fuel : Nat)
    (w : World σ) : e.runPass (fuel + 1) pass w = (.ok pass, w) := by
  unfold runPass
  rw [hq]
  rfl

/-- A pass looks at the first site of its queue and goes on with what it has come to. -/
theorem runPass_cons {e : Engine σ} {pass : Pass} {site : Site} {queue : List Site}
    (hq : pass.queue = site :: queue) (fuel : Nat) (w : World σ) :
    e.runPass (fuel + 1) pass w = match e.step (e.runPass fuel) { pass with queue } site w with
      | (.ok pass', w') => e.runPass fuel pass' w'
      | (.error s, w') => (.error s, w') := by
  rw [runPass, hq]
  dsimp only
  rw [Run.bind_apply]
  generalize e.step _ _ _ _ = result
  rcases result with ⟨_ | _, _⟩ <;> rfl

theorem runPass_goes_on {e : Engine σ} {pass pass' : Pass} {site : Site} {queue : List Site}
    {fuel : Nat} {w w' : World σ} (hq : pass.queue = site :: queue)
    (hs : e.step (e.runPass fuel) { pass with queue } site w = (.ok pass', w')) :
    e.runPass (fuel + 1) pass w = e.runPass fuel pass' w' := by
  rw [runPass_cons hq, hs]

theorem runPass_stops {e : Engine σ} {pass : Pass} {site : Site} {queue : List Site} {fuel : Nat}
    {w w' : World σ} {s : Stop} (hq : pass.queue = site :: queue)
    (hs : e.step (e.runPass fuel) { pass with queue } site w = (.error s, w')) :
    e.runPass (fuel + 1) pass w = (.error s, w') := by
  rw [runPass_cons hq, hs]

/-- The run of a pass has come to `last` in the world `w` by turns, and that is how it ended: the
queue is empty, or the steps are used up, or the step for the site at the front stops. -/
inductive EndsAt (e : Engine σ) (limit : Nat) (last : Pass) (w : World σ) :
    Except Stop Pass × World σ → Prop
  | done (hq : last.queue = []) : EndsAt e limit last w (.ok last, w)
  | exhausted : EndsAt e limit last w (.error .exhausted, w)
  | stopped {site : Site} {queue : List Site} {fuel : Nat} {s : Stop} {w' : World σ}
      (hq : last.queue = site :: queue) (hf : fuel < limit)
      (hs : e.step (e.runPass fuel) { last with queue } site w = (.error s, w')) :
      EndsAt e limit last w (.error s, w')

/-- However a pass ends, it has come there by turns. -/
theorem runPass_endsAt {e : Engine σ} {limit : Nat} {pass₀ : Pass} {w₀ : World σ} :
    ∀ {fuel : Nat} {turns : List Turn} {pass : Pass} {w : World σ}, fuel ≤ limit →
      e.Reaches limit pass₀ w₀ turns pass w →
      ∃ turns' last w', e.Reaches limit pass₀ w₀ turns' last w' ∧
        e.EndsAt limit last w' (e.runPass fuel pass w)
  | 0, turns, pass, w, _, hr => ⟨turns, pass, w, hr, .exhausted⟩
  | fuel + 1, turns, pass, w, hf, hr => by
    cases hq : pass.queue with
    | nil =>
      rw [runPass_done hq]
      exact ⟨turns, pass, w, hr, .done hq⟩
    | cons site queue =>
      rw [runPass_cons hq]
      rcases hs : e.step (e.runPass fuel) { pass with queue } site w with ⟨s | pass', w₁⟩
      · exact ⟨turns, pass, w, hr, .stopped hq hf hs⟩
      · obtain ⟨deed, hd, rfl⟩ := step_does hs
        exact runPass_endsAt (Nat.le_of_succ_le hf) (.turn hr hq hf hd)

/-- A pass with an answer has come to it by turns, and its queue is empty. -/
theorem runPass_reaches {e : Engine σ} {limit fuel : Nat} {pass₀ pass final : Pass}
    {w₀ w w' : World σ} {turns : List Turn} (hf : fuel ≤ limit)
    (hr : e.Reaches limit pass₀ w₀ turns pass w) (h : e.runPass fuel pass w = (.ok final, w')) :
    ∃ turns', e.Reaches limit pass₀ w₀ turns' final w' ∧ final.queue = [] := by
  obtain ⟨turns', last, w₁, hr', hend⟩ := runPass_endsAt hf hr
  rw [h] at hend
  cases hend with
  | done hq => exact ⟨turns', hr', hq⟩

namespace Reaches

variable {e : Engine σ} {limit : Nat} {pass₀ pass : Pass} {w₀ w : World σ} {turns : List Turn}

theorem rootOnly_eq (h : e.Reaches limit pass₀ w₀ turns pass w) :
    pass.rootOnly = pass₀.rootOnly := by
  induction h with
  | start => rfl
  | turn _ _ _ _ ih => rw [Pass.after_rootOnly]; exact ih

theorem number_eq (h : e.Reaches limit pass₀ w₀ turns pass w) : pass.number = pass₀.number := by
  induction h with
  | start => rfl
  | turn _ _ _ _ ih => rw [Pass.after_number]; exact ih

theorem rootKey_eq (h : e.Reaches limit pass₀ w₀ turns pass w) : pass.rootKey = pass₀.rootKey := by
  induction h with
  | start => rfl
  | turn _ _ _ _ ih => rw [Pass.after_rootKey]; exact ih

end Reaches

end Engine

end ComponentTree
