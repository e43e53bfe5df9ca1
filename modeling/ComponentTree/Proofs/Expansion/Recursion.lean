import ComponentTree.Proofs.Expansion.Sizes
import ComponentTree.Proofs.Rule.Rulebook
import ComponentTree.Proofs.Tree.Veiled

/-!
Expansion as plain recursion.

Rules that only write the rendering and the mixins of their record, by looking at nothing but the
record and its position, can be taken for functions. With them a tree can be expanded by recursion
on the tree, without a queue, paths or marks (`unfold`). Here is what one step of a pass does with a
node when the rules are of that kind: it opens a list, and it dresses a record as the recursion does
(`Decorates.does`). The mixins that a rule puts in may be new records with identities that no
function of the record gives, so identities in mixins are left out of the comparison.
-/

namespace ComponentTree

variable {σ : Type}

/-! ### The recursion -/

/-- The record without the identities in its mixins. Rules may put new records there. -/
def Record.masked (r : Record) : Record :=
  { r with mixins := r.mixins.map Node.anonymous }

theorem Record.veiled_eq {r r' : Record} (h : r.masked = r'.masked) :
    (Node.record r).veiled = (Node.record r').veiled := by
  rw [Node.veiled_record, Node.veiled_record]
  exact congrArg (fun m : Record => Node.record { m with content := m.content.veiled }) h

/-- Rules as functions: the rendering and the mixins that a rule gives to a record at a position. -/
abbrev Dressing := RuleId → Position → Record → Rendering × List Node

/-- The record with the rendering and the mixins that a rule gives to it. -/
def Record.dress (f : Dressing) (rule : RuleId) (position : Position) (r : Record) : Record :=
  { r with rendering := (f rule position r.masked).1, mixins := (f rule position r.masked).2 }

/-- The record after rules, of which the first has its turn first, until one has stopped it. -/
def Record.dressAll (f : Dressing) (position : Position) : List RuleId → Record → Record
  | [], r => r
  | rule :: rest, r =>
    if (r.dress f rule position).rendering.stopped then r.dress f rule position
    else (r.dress f rule position).dressAll f position rest

/-- The record after all rules that it is matched by. -/
def Engine.dressMatched (e : Engine σ) (f : Dressing) (position : Position) (r : Record)
    (component : String) (variant : Option String) : Record :=
  match e.rulebook.resolve component variant r.part with
  | none => r
  | some (_, rules) => r.dressAll f position rules

/-- The record after the rules, if it has a component and is not stopped. -/
def Engine.dressed (e : Engine σ) (f : Dressing) (position : Position) (owner : Owner)
    (r : Record) : Record :=
  match r.component with
  | none => r
  | some component =>
    if r.rendering.stopped then r else e.dressMatched f position r component owner.variant

theorem Record.dressAll_content (f : Dressing) (position : Position) :
    ∀ (rules : List RuleId) (r : Record), (r.dressAll f position rules).content = r.content
  | [], r => rfl
  | rule :: rest, r => by
    rw [dressAll]
    split
    · rfl
    · rw [dressAll_content f position rest]
      rfl

theorem Engine.dressed_content (e : Engine σ) (f : Dressing) (position : Position) (owner : Owner)
    (r : Record) : (e.dressed f position owner r).content = r.content := by
  unfold dressed
  split
  · rfl
  · split
    · rfl
    · unfold dressMatched
      split
      · rfl
      · exact r.dressAll_content f position _

/-- A tree with everything in it dressed by plain recursion. A list hands down what it is given to
its items. A record gets its owner, then its rules have their turn, and what its rules leave hands
down its component and variant to its flattened content. -/
def Engine.unfold (e : Engine σ) (f : Dressing) (owner : Owner) (position : Position) :
    Node → Node
  | .list items =>
    .list (items.zipIdx.attach.map fun x =>
      e.unfold f owner (.listed x.1.2 items.length) x.1.1)
  | .record r =>
    let below := (e.resolveOwner r owner).2
    .record { e.dressed f position below (e.resolveOwner r owner).1 with
      content :=
        match _hc : r.content.flattenContent with
        | .list items =>
          .list (items.zipIdx.attach.map fun x =>
            e.unfold f below (.listed x.1.2 items.length) x.1.1)
        | content => e.unfold f below .alone content }
  | node => node
termination_by t => t.size
decreasing_by
  · exact Node.size_lt_list (List.fst_mem_of_mem_zipIdx x.2)
  · have hsize := r.content.size_flattenContent_le
    rw [_hc] at hsize
    have hitem := Node.size_lt_list (List.fst_mem_of_mem_zipIdx x.2)
    exact Nat.lt_trans (Nat.lt_of_lt_of_le hitem hsize) (Node.size_content_lt r)
  · exact Nat.lt_of_le_of_lt (_hc ▸ r.content.size_flattenContent_le) (Node.size_content_lt r)

/-- The items of a list, or a node that is none, changed by a function of their positions. -/
def Node.mapInside (g : Position → Node → Node) : Node → Node
  | .list items => .list (items.zipIdx.map fun x => g (.listed x.2 items.length) x.1)
  | node => g .alone node

namespace Engine

variable {e : Engine σ} {f : Dressing}

theorem unfold_list (owner : Owner) (position : Position) (items : List Node) :
    e.unfold f owner position (.list items) = (Node.list items).mapInside (e.unfold f owner) := by
  rw [unfold]
  exact congrArg _ (List.attach_map_val (f := fun x : Node × Nat =>
    e.unfold f owner (.listed x.2 items.length) x.1))

theorem unfold_record {r r' : Record} {owner below : Owner}
    (hr : e.resolveOwner r owner = (r', below)) (position : Position) :
    e.unfold f owner position (.record r) =
      .record { e.dressed f position below r' with
        content := r.content.flattenContent.mapInside (e.unfold f below) } := by
  have hcontent : ∀ content : Node, (match _hc : content with
      | .list items => .list (items.zipIdx.attach.map fun x =>
          e.unfold f below (.listed x.1.2 items.length) x.1.1)
      | content => e.unfold f below .alone content) =
      content.mapInside (e.unfold f below) := by
    intro content
    cases content with
    | list items =>
      exact congrArg Node.list (List.attach_map_val (f := fun x : Node × Nat =>
        e.unfold f below (.listed x.2 items.length) x.1))
    | _ => rfl
  rw [unfold, hr]
  dsimp only
  rw [hcontent]

/-- What is neither a list nor a record stays. -/
theorem unfold_of_not_isInner {n : Node} (h : n.isInner = false) (owner : Owner)
    (position : Position) : e.unfold f owner position n = n := by
  cases n with
  | list => cases h
  | record => cases h
  | _ => simp [unfold]

/-! ### Rules that only decorate -/

/-- Every rule answers with nothing and leaves the record as `f` dresses it, but for identities in
the mixins, wherever and whenever it runs and whatever passes would do. -/
def Decorates (e : Engine σ) (f : Dressing) : Prop :=
  ∀ rule body, e.rulebook.body? rule = some body →
    ∀ (run : Pass → Run σ Pass) position r (w : World σ), ∃ c w',
      e.runBody run body position r w = (.ok (none, c), w') ∧
        c.record.masked = (r.dress f rule position).masked

end Engine

theorem Record.dress_masked {f : Dressing} {r r' : Record} (h : r.masked = r'.masked)
    (rule : RuleId) (position : Position) :
    (r.dress f rule position).masked = (r'.dress f rule position).masked := by
  unfold dress
  rw [h]
  cases r
  cases r'
  simp only [masked, Record.mk.injEq] at h ⊢
  tauto

/-- A record in which only the rendering and the mixins have been written is dressed by what was
written. -/
theorem Record.masked_eq_dress {f : Dressing} {rule : RuleId} {position : Position} {r r' : Record}
    (h : r' = { r with rendering := r'.rendering, mixins := r'.mixins })
    (hrendering : r'.rendering = (f rule position r.masked).1)
    (hmixins : r'.mixins.map Node.anonymous =
      (f rule position r.masked).2.map Node.anonymous) :
    r'.masked = (r.dress f rule position).masked := by
  unfold masked dress
  dsimp only
  rw [h, ← hrendering, ← hmixins]

/-- Identities in the mixins do not count for what the rules leave. -/
theorem Record.dressAll_masked {f : Dressing} (position : Position) :
    ∀ (rules : List RuleId) {r r' : Record}, r.masked = r'.masked →
      (r.dressAll f position rules).masked = (r'.dressAll f position rules).masked
  | [], _, _, h => h
  | rule :: rest, r, r', h => by
    have hdress := dress_masked (f := f) h rule position
    have hstopped := congrArg (·.rendering.stopped) hdress
    dsimp only [masked] at hstopped
    rw [dressAll, dressAll, hstopped]
    split
    · exact hdress
    · exact dressAll_masked position rest hdress

namespace RuleM

variable {α : Type}

/-- A program enters no marks itself. -/
theorem exec_marks (e : Engine σ) (body : RuleM σ α) : ∀ (c : Context) (w : World σ),
    (body.exec e.options.idPrefix (e.runPass 0) c w).2.ledger.marks = w.ledger.marks := by
  induction body with
  | done a => exact fun _ _ => rfl
  | fail s => exact fun _ _ => rfl
  | look next ih => exact fun c w => ih c c w
  | write x next ih => exact fun c w => ih _ w
  | generateId next ih => exact fun c w => ih _ c _
  | issue tree next ih => exact fun c w => ih _ c _
  | runAhead next ih =>
    intro c w
    have hcut : Run.attempt (c.runAhead (e.runPass 0)) w =
        (.error .exhausted, { w with ledger := { w.ledger with passes := w.ledger.passes + 1 } }) :=
      rfl
    unfold exec
    rw [Run.bind_apply, hcut]
  | «recall» next ih => exact fun c w => ih w.memory c w
  | remember memory next ih => exact fun c w => ih c _

end RuleM

namespace Engine

variable {e : Engine σ} {f : Dressing} {run : Pass → Run σ Pass}

/-- A rule that decorates asks for no passes, since it has an answer even if they are cut off. So it
enters no marks. -/
theorem Decorates.runBody (hf : e.Decorates f) {rule : RuleId} {body : RuleM σ (Option Node)}
    (hb : e.rulebook.body? rule = some body) (hrun : ∀ pass, (e.runPass 0 pass).GoesOn (run pass))
    (position : Position) (r : Record) (w : World σ) : ∃ c w',
      e.runBody run body position r w = (.ok (none, c), w') ∧
        c.record.masked = (r.dress f rule position).masked ∧
          w'.ledger.marks = w.ledger.marks := by
  obtain ⟨c, w', hcut, hc⟩ := hf rule body hb (e.runPass 0) position r w
  have hmarks := body.exec_marks e { record := r, position, library := e.library } w
  rw [← Engine.runBody, hcut] at hmarks
  refine ⟨c, w', ?_, hc, hmarks⟩
  rcases (body.exec_goesOn hrun { record := r, position, library := e.library }).same w with
    hs | hs
  · rw [← Engine.runBody, hcut] at hs
    cases hs
  · exact hs.trans hcut

/-- Rules without marks on the record leave it dressed by all of them, and mark nothing else. -/
theorem Decorates.runRules (hf : e.Decorates f)
    (hrun : ∀ pass, (e.runPass 0 pass).GoesOn (run pass)) (pass : Nat) (site : Site) (key : Key) :
    ∀ (rules : List RuleId) (r : Record) (w : World σ), rules.Nodup →
      (∀ rule ∈ rules, (e.rulebook.body? rule).isSome ∧ (key, rule) ∉ w.ledger.marks) →
      ∃ left w', e.runRules run pass site key rules r w = (.ok (.kept left), w') ∧
        left.masked = (r.dressAll f site.position rules).masked ∧
        ∀ x ∈ w'.ledger.marks, x ∈ w.ledger.marks ∨ x.1 = key
  | [], r, w, _, _ => ⟨r, w, rfl, rfl, fun _ => Or.inl⟩
  | rule :: rest, r, w, hn, hrules => by
    obtain ⟨hnew, hn⟩ := List.nodup_cons.mp hn
    obtain ⟨⟨hb, hm⟩, hrest⟩ := List.forall_mem_cons.mp hrules
    obtain ⟨body, hb⟩ := Option.isSome_iff_exists.mp hb
    obtain ⟨c, w₁, hbody, hc, hmarks⟩ := hf.runBody hb hrun site.position r
      ((w.mark key rule).log (.started pass site.path key rule site.position))
    replace hmarks : w₁.ledger.marks = (key, rule) :: w.ledger.marks := hmarks
    have marked₁ : ∀ {x}, x ∈ w₁.ledger.marks → x ∈ w.ledger.marks ∨ x.1 = key := by
      intro x hx
      rw [hmarks] at hx
      rcases List.mem_cons.mp hx with rfl | hx
      · exact Or.inr rfl
      · exact Or.inl hx
    have hstopped : c.record.rendering.stopped = (r.dress f rule site.position).rendering.stopped :=
      congrArg (·.rendering.stopped) hc
    rw [runRules_of_body hm hb, Run.bind_apply, hbody]
    unfold proceed replacement?
    dsimp only
    rw [hstopped, Record.dressAll]
    split
    · exact ⟨c.record, w₁, rfl, hc, fun x hx => marked₁ hx⟩
    · have hunmarked : ∀ x ∈ rest, (e.rulebook.body? x).isSome ∧ (key, x) ∉ w₁.ledger.marks := by
        refine fun x hx => ⟨(hrest x hx).1, ?_⟩
        rw [hmarks, List.mem_cons, Prod.mk.injEq]
        rintro (⟨-, rfl⟩ | hx')
        · exact hnew hx
        · exact (hrest x hx).2 hx'
      obtain ⟨left, w', hw', hleft, hmarks'⟩ := Decorates.runRules hf hrun pass site key rest
        c.record w₁ hn hunmarked
      exact ⟨left, w', hw', hleft.trans (Record.dressAll_masked site.position rest hc),
        fun x hx => (hmarks' x hx).elim marked₁ Or.inr⟩

/-- The rules that a record without marks is matched by leave it dressed by all of them. -/
theorem Decorates.applyRules (hf : e.Decorates f) (hb : e.rulebook.Built)
    (hrun : ∀ pass, (e.runPass 0 pass).GoesOn (run pass)) (pass : Nat) (site : Site) (r : Record)
    (component : String) (variant : Option String) (w : World σ)
    (hm : ∀ rule, (r.key, rule) ∉ w.ledger.marks) :
    ∃ left w', e.applyRules run pass site r component variant w = (.ok (.kept left), w') ∧
      left.masked = (e.dressMatched f site.position r component variant).masked ∧
      ∀ x ∈ w'.ledger.marks, x ∈ w.ledger.marks ∨ x.1 = r.key := by
  unfold Engine.applyRules dressMatched
  cases hres : e.rulebook.resolve component variant r.part with
  | none => exact ⟨r, w, rfl, rfl, fun _ => Or.inl⟩
  | some x =>
    have hn := hb.stored_nodup x.1
    rw [(Rulebook.resolve_eq_some hres).2] at hn
    exact hf.runRules hrun pass site r.key x.2 r w hn fun rule hrule =>
      ⟨hb.body?_isSome hres hrule, hm rule⟩

/-- What a pass does with the node at a site if rules only decorate. -/
inductive Plain (e : Engine σ) (f : Dressing) (site : Site) : Node → Deed → Prop
  | opened (items : List Node) : Plain e f site (.list items) (.opened items)
  | kept {found r left : Record} {owner : Owner} (hr : e.resolveOwner found site.owner = (r, owner))
      (h : left.masked = (e.dressed f site.position owner r).masked) :
      Plain e f site (.record found) (.kept found left owner)
  | passed {node : Node} (h : node.isInner = false) : Plain e f site node (.passed node)

/-- The content of a record that is kept is the content that was found. -/
theorem Plain.content {site : Site} {found left : Record} {owner : Owner}
    (h : e.Plain f site (.record found) (.kept found left owner)) :
    left.content = found.content := by
  obtain ⟨⟩ | ⟨hr, hleft⟩ | ⟨⟩ := h
  have hcontent := (congrArg (·.content) hleft).trans (e.dressed_content ..)
  exact hcontent.trans (content_of_resolveOwner hr)

/-- If rules only decorate, a record without marks is dressed and kept. -/
theorem Decorates.does (hf : e.Decorates f) (hb : e.rulebook.Built)
    (hg : e.options.divergenceGuard = false)
    (hrun : ∀ pass, (e.runPass 0 pass).GoesOn (run pass)) (pass : Pass) {site : Site} {node : Node}
    {w : World σ} (hn : pass.tree.at? site.path = some node)
    (hm : ∀ r, node = .record r → ∀ rule, (r.key, rule) ∉ w.ledger.marks) :
    ∃ deed w', e.Does run pass site w deed w' ∧ e.Plain f site node deed ∧
      ∀ x ∈ w'.ledger.marks, x ∈ w.ledger.marks ∨ ∃ r, node = .record r ∧ x.1 = r.key := by
  cases node with
  | list items => exact ⟨_, w, .opened hn, .opened items, fun _ => Or.inl⟩
  | record found =>
    rcases hr : e.resolveOwner found site.owner with ⟨r, owner⟩
    have hrefuses : e.options.refuses site.count.rounds = false := Options.refuses_of_off hg _
    cases hc : r.component with
    | none =>
      have hdressed : e.dressed f site.position owner r = r := by rw [dressed, hc]
      exact ⟨_, w, .plain hn hr hc, .kept hr (by rw [hdressed]), fun _ => Or.inl⟩
    | some component =>
      cases hs : r.rendering.stopped with
      | true =>
        have hdressed : e.dressed f site.position owner r = r := by
          rw [dressed, hc]
          exact if_pos hs
        exact ⟨_, _, .stopped hn hr hc hrefuses hs, .kept hr (by rw [hdressed]), fun _ => Or.inl⟩
      | false =>
        have hdressed : e.dressed f site.position owner r =
            e.dressMatched f site.position r component owner.variant := by
          rw [dressed, hc]
          exact if_neg (by rw [hs]; exact Bool.false_ne_true)
        have hkey : r.key = found.key := by
          have hk := e.resolveOwner_key found site.owner
          rwa [hr] at hk
        obtain ⟨left, w', hv, hleft, hmarks⟩ := hf.applyRules hb hrun pass.number site.count r
          component owner.variant (arrive pass site r owner component w) (hkey ▸ hm found rfl)
        refine ⟨_, w', .kept hn hr hc hrefuses hs hv, .kept hr (hdressed ▸ hleft), fun x hx => ?_⟩
        exact (hmarks x hx).imp id fun h => ⟨found, rfl, h.trans hkey⟩
  | _ => exact ⟨_, w, .passed hn rfl, .passed rfl, fun _ => Or.inl⟩

end Engine

end ComponentTree
