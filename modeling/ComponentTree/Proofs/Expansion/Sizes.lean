import ComponentTree.Proofs.Engine.Owner
import ComponentTree.Proofs.Expansion.Termination
import ComponentTree.Proofs.Tree.Size

/-!
What is left to do after a deed.

A deed queues sites for what is inside the node that it leaves, or for what has replaced it
(`Does.sites_map_nodeAt`). If it replaces nothing, the sites are deeper in the tree than its own
(`Deed.sites_deeper`), and the nodes at them are smaller than the one that was found, unless a rule
has put more content into the record (`Does.size_lt`). Only a rule that starts can do so
(`Does.idle_or_started`), and it starts only on a record that has come up and was not refused by the
guard (`Does.idle_or_visited`).
-/

namespace ComponentTree

variable {σ : Type}

/-- Whether a rule replaced the record. -/
def Deed.replaces : Deed → Bool
  | .replaced .. => true
  | _ => false

/-- Unless it is about a record that was replaced, a deed queues sites deeper than its own. -/
theorem Deed.sites_deeper {rootOnly : Bool} {site s : Site} {deed : Deed}
    (hr : deed.replaces = false) (hs : s ∈ deed.sites rootOnly site) :
    site.path.length < s.path.length := by
  have items : ∀ {base owner items}, site.path.length ≤ base.length →
      s ∈ Site.ofItems base owner items → site.path.length < s.path.length := by
    intro base owner items hb hs
    obtain ⟨i, _, _, _, rfl⟩ := Site.mem_ofItems.mp hs
    simp only [List.length_append, List.length_singleton]
    omega
  cases deed with
  | missed => cases hs
  | passed => cases hs
  | opened => exact items (Nat.le_refl _) hs
  | kept found left owner =>
    simp only [sites] at hs
    split at hs
    · cases hs
    · rcases Site.mem_ofContent hs with ⟨_, -, hs⟩ | rfl
      · exact items (by simp) hs
      · simp
  | replaced => cases hr

/-- Unless it is about a record that was replaced, the sites that a deed queues count from zero. -/
theorem Deed.sites_rounds {rootOnly : Bool} {site s : Site} {deed : Deed}
    (hr : deed.replaces = false) (hs : s ∈ deed.sites rootOnly site) : s.rounds = 0 := by
  have items : ∀ {base owner items}, s ∈ Site.ofItems base owner items → s.rounds = 0 := by
    intro base owner items hs
    obtain ⟨i, _, _, _, rfl⟩ := Site.mem_ofItems.mp hs
    rfl
  cases deed with
  | missed => cases hs
  | passed => cases hs
  | opened => exact items hs
  | kept found left owner =>
    simp only [sites] at hs
    split at hs
    · cases hs
    · rcases Site.mem_ofContent hs with ⟨_, -, hs⟩ | rfl
      · exact items hs
      · rfl
  | replaced => cases hr

namespace Site

/-- The items into which expansion goes are what is found at the sites of a list. -/
theorem ofItems_map {base : Path} {owner : Owner} {items : List Node} {g : Site → Node}
    (hg : ∀ i item, items[i]? = some item →
      g ⟨base ++ [.item i], .listed i items.length, owner, 0⟩ = item) :
    (ofItems base owner items).map g = (Node.list items).inside := by
  have hfst : items.filter Node.isInner =
      (items.zipIdx.map Prod.fst).filterMap (Option.guard Node.isInner) := by
    rw [List.zipIdx_map_fst, List.filterMap_eq_filter]
  rw [Node.inside, hfst, List.filterMap_map, ofItems, List.map_filterMap]
  refine List.filterMap_congr fun x hx => ?_
  have hitem := hg x.2 x.1 (List.mem_zipIdx_iff_getElem?.mp hx)
  cases hn : x.1.isInner with
  | true => simp [hn, hitem, Option.guard]
  | false => simp [hn, Option.guard]

theorem ofContent_map {base : Path} {owner : Owner} {content : Node} {g : Site → Node}
    (hitems : ∀ items i item, content = .list items → items[i]? = some item →
      g ⟨base ++ [.content, .item i], .listed i items.length, owner, 0⟩ = item)
    (hsole : content.isList = false → g ⟨base ++ [.content], .alone, owner, 0⟩ = content) :
    (ofContent base owner content).map g = content.inside := by
  cases content with
  | list items =>
    refine ofItems_map fun i item hi => ?_
    rw [List.append_assoc]
    exact hitems items i item rfl hi
  | record r =>
    rw [ofContent_of_isInner rfl rfl, List.map_singleton, hsole rfl]
    rfl
  | _ => rfl

end Site

/-- The nodes at the sites that a deed queues. -/
def Deed.queued (rootOnly : Bool) : Deed → List Node
  | .missed | .passed _ => []
  | .opened items => (Node.list items).inside
  | .kept _ left _ => if rootOnly then [] else left.content.flattenContent.inside
  | .replaced _ _ replacement _ => [replacement]

theorem Deed.queued_kept (found left : Record) (owner : Owner) :
    (kept found left owner).queued false = left.content.flattenContent.inside := rfl

namespace Engine

open World

namespace Does

variable {e : Engine σ} {run : Pass → Run σ Pass} {pass : Pass} {site : Site} {deed : Deed}
  {w w' : World σ}

/-- What is at a site that a deed queues is part of what is at the site of the deed. -/
theorem nodeAt_eq (h : e.Does run pass site w deed w') (hp : (pass.tree.at? site.path).isSome)
    {s : Site} {q : Path} (hq : s.path = site.path ++ q) {n m : Node}
    (hn : deed.node? pass.rootOnly = some n) (hm : n.at? q = some m) :
    (pass.after site deed).nodeAt s = m := by
  unfold Pass.nodeAt
  rw [hq, h.at?_site hp, hn, Option.bind_some, hm]
  rfl

/-- The nodes at the sites that a deed queues. -/
theorem sites_map_nodeAt (h : e.Does run pass site w deed w')
    (hp : (pass.tree.at? site.path).isSome) :
    (deed.sites pass.rootOnly site).map (pass.after site deed).nodeAt =
      deed.queued pass.rootOnly := by
  cases deed with
  | missed => rfl
  | passed => rfl
  | opened items =>
    refine Site.ofItems_map fun i item hi => h.nodeAt_eq hp rfl rfl ?_
    rw [Node.at?_item_list, hi]
    exact Node.at?_nil item
  | replaced found left replacement owner =>
    have hsite := h.nodeAt_eq hp (s := { site.count with owner }) (List.append_nil _).symm rfl
      (Node.at?_nil replacement)
    exact congrArg ([·]) hsite
  | kept found left owner =>
    cases hro : pass.rootOnly with
    | true => rfl
    | false =>
      have hnode : (Deed.kept found left owner).node? pass.rootOnly =
          some (.record { left with content := left.content.flattenContent }) := by
        rw [Deed.node?, Record.settledIn, hro]
        rfl
      refine Site.ofContent_map (fun items i item hl hi => ?_) fun hl => ?_
      · refine h.nodeAt_eq hp rfl hnode ?_
        rw [Node.at?_content_record]
        dsimp only
        rw [hl, Node.at?_item_list, hi]
        exact Node.at?_nil item
      · refine h.nodeAt_eq hp rfl hnode ?_
        rw [Node.at?_content_record]
        exact Node.at?_nil _

/-- The nodes at the sites that a deed queues are smaller than the one that was found, if the record
was not replaced and its content has not grown. -/
theorem size_lt (h : e.Does run pass site w deed w') (hp : (pass.tree.at? site.path).isSome)
    (hr : deed.replaces = false)
    (hc : ∀ found left, deed.leaves? = some (found, left) →
      left.content.size ≤ found.content.size)
    {s : Site} (hs : s ∈ deed.sites pass.rootOnly site) :
    ((pass.after site deed).nodeAt s).size < (pass.nodeAt site).size := by
  have hqueued : (pass.after site deed).nodeAt s ∈ deed.queued pass.rootOnly := by
    rw [← h.sites_map_nodeAt hp]
    exact List.mem_map_of_mem hs
  cases deed with
  | missed => cases hs
  | passed => cases hs
  | replaced => cases hr
  | opened items =>
    have hfound : pass.nodeAt site = .list items := by
      cases h with | opened h => rw [Pass.nodeAt, h]; rfl
    rw [hfound]
    exact Node.size_lt_list (List.mem_filter.mp hqueued).1
  | kept found left owner =>
    have hfound : pass.nodeAt site = .record found := by
      rw [Pass.nodeAt, h.found rfl]
      rfl
    rw [Deed.queued] at hqueued
    split at hqueued
    · cases hqueued
    · have hcontent := Nat.le_trans left.content.size_flattenContent_le (hc found left rfl)
      rw [hfound]
      exact Nat.lt_of_le_of_lt (Nat.le_trans (Node.size_le_of_mem_inside hqueued) hcontent)
        (Node.size_content_lt found)

end Does

/-- A list of rules keeps its record as it is, unless one of them starts. -/
theorem Ran.idle_or_started {e : Engine σ} {run : Pass → Run σ Pass} {pass : Nat} {site : Site}
    {key : Key} {rules : List RuleId} {r : Record} {w w' : World σ} {v : Verdict}
    (hrun : ∀ pass w, Moves e w (run pass w).2) (h : e.Ran run pass site key rules r w v w') :
    (v = .kept r ∧ w.ledger.GrowsTo w'.ledger) ∨ w.ledger.StartedSince w'.ledger := by
  have started : ∀ {w w₁ : World σ} {rule : RuleId} {body : RuleM σ (Option Node)} {r : Record}
      {x : Option Node × Context}, e.runBody run body site.position r
        ((w.mark key rule).log (.started pass site.path key rule site.position)) = (.ok x, w₁) →
      w.ledger.StartedSince w₁.ledger := by
    intro w w₁ rule body r x hx
    have hm := (e.admits_moves.exec hrun body
      { record := r, position := site.position, library := e.library }
      ((w.mark key rule).log (.started pass site.path key rule site.position))).grows
    unfold runBody at hx
    rw [hx] at hm
    exact (startedSince_started (.refl _) pass site.path key rule site.position).trans hm
  induction h with
  | done => exact Or.inl ⟨rfl, .refl _⟩
  | marked _ _ ih => exact ih
  | @missing rule rest r w w' v hm hb _ ih =>
    have hg : w.ledger.GrowsTo (w.mark key rule).ledger := (Move.skip key rule hm hb).grows
    exact ih.imp (fun h => ⟨h.1, hg.trans h.2⟩) hg.startedSince
  | replaced hm hb hx =>
    exact Or.inr ((started hx).trans ⟨List.suffix_rfl, Nat.le_refl _, List.suffix_cons ..⟩)
  | stopped hm hb hx => exact Or.inr (started hx)
  | went hm hb hx ha hs h ih =>
    exact Or.inr ((started hx).trans (ih.elim (fun h => h.2) fun h => h.grows))

theorem applyRules_idle_or_started {e : Engine σ} {run : Pass → Run σ Pass} {pass : Nat}
    {site : Site} {r : Record} {component : String} {variant : Option String} {w w' : World σ}
    {v : Verdict} (hrun : ∀ pass w, Moves e w (run pass w).2)
    (h : e.applyRules run pass site r component variant w = (.ok v, w')) :
    (v = .kept r ∧ w.ledger.GrowsTo w'.ledger) ∨ w.ledger.StartedSince w'.ledger := by
  rcases applyRules_eq_ok h with ⟨-, rfl, rfl⟩ | ⟨s, rules, -, hran⟩
  · exact Or.inl ⟨rfl, .refl _⟩
  · exact hran.idle_or_started hrun

namespace Does

variable {e : Engine σ} {fuel : Nat} {pass : Pass} {site : Site} {deed : Deed} {w w' : World σ}

/-- A deed replaces nothing and gives the record no other content, unless a rule starts. -/
theorem idle_or_started (h : e.Does (e.runPass fuel) pass site w deed w') :
    (deed.replaces = false ∧ ∀ found left, deed.leaves? = some (found, left) →
      left.content = found.content) ∨ w.ledger.StartedSince w'.ledger := by
  have rules : ∀ {r : Record} {owner : Owner} {component : String} {v : Verdict},
      e.applyRules (e.runPass fuel) pass.number site.count r component owner.variant
        (arrive pass site r owner component w) = (.ok v, w') →
      v = .kept r ∨ w.ledger.StartedSince w'.ledger := by
    intro r owner component v hv
    have hg := (Move.visit (e := e) (w := w) pass.number site.path r.key component owner.variant
      r.part).grows
    exact (applyRules_idle_or_started (runPass_moves fuel) hv).imp (fun h => h.1) hg.startedSince
  cases h with
  | missed => exact Or.inl ⟨rfl, by rintro _ _ ⟨⟩⟩
  | opened => exact Or.inl ⟨rfl, by rintro _ _ ⟨⟩⟩
  | passed => exact Or.inl ⟨rfl, by rintro _ _ ⟨⟩⟩
  | plain _ hr => exact Or.inl ⟨rfl, by rintro _ _ ⟨⟩; exact content_of_resolveOwner hr⟩
  | stopped _ hr => exact Or.inl ⟨rfl, by rintro _ _ ⟨⟩; exact content_of_resolveOwner hr⟩
  | kept _ hr _ _ _ hv =>
    refine (rules hv).imp (fun hk => ⟨rfl, ?_⟩) id
    rintro _ _ ⟨⟩
    cases hk
    exact content_of_resolveOwner hr
  | replaced _ hr _ _ _ hv =>
    refine (rules hv).imp (fun hk => ?_) id
    cases hk

/-- A deed replaces nothing and gives the record no other content, unless a record with a component
has come up at its site and was not refused by the guard. -/
theorem idle_or_visited (h : e.Does (e.runPass fuel) pass site w deed w') :
    (deed.replaces = false ∧ ∀ found left, deed.leaves? = some (found, left) →
      left.content = found.content) ∨
    e.options.refuses site.count.rounds = false ∧ ∃ key component variant part,
      Event.visited pass.number site.path key component variant part ∈ w'.ledger.journal := by
  have rules : ∀ {r : Record} {owner : Owner} {component : String} {v : Verdict},
      e.applyRules (e.runPass fuel) pass.number site.count r component owner.variant
        (arrive pass site r owner component w) = (.ok v, w') →
      Event.visited pass.number site.path r.key component owner.variant r.part ∈
        w'.ledger.journal := by
    intro r owner component v hv
    have hg := (applyRules_idle_or_started (runPass_moves fuel) hv).elim (fun h => h.2)
      fun h => h.grows
    exact hg.journal.subset (List.mem_cons_self ..)
  cases h with
  | missed => exact Or.inl ⟨rfl, by rintro _ _ ⟨⟩⟩
  | opened => exact Or.inl ⟨rfl, by rintro _ _ ⟨⟩⟩
  | passed => exact Or.inl ⟨rfl, by rintro _ _ ⟨⟩⟩
  | plain _ hr => exact Or.inl ⟨rfl, by rintro _ _ ⟨⟩; exact content_of_resolveOwner hr⟩
  | stopped _ _ _ hg => exact Or.inr ⟨hg, _, _, _, _, List.mem_cons_self ..⟩
  | kept _ _ _ hg _ hv => exact Or.inr ⟨hg, _, _, _, _, rules hv⟩
  | replaced _ _ _ hg _ hv => exact Or.inr ⟨hg, _, _, _, _, rules hv⟩

end Does

end Engine

end ComponentTree
