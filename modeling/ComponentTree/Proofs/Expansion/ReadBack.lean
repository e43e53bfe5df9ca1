import ComponentTree.Proofs.Expansion.BreadthFirst
import ComponentTree.Proofs.Expansion.Limits
import ComponentTree.Proofs.Expansion.Rewrites
import ComponentTree.Proofs.Tree.ReadBack

/-!
Expanded trees that are read back.

An engine without rules only fills in owners and flattens content (`Fills`), so an expansion ends
with a tree throughout which everything holds that held throughout the root and that neither of the
two can change (`expand_throughout`). What can change is the component and the variant of a record:
a part takes over those of the component around it, and a component its default variant. Main
statement: the expanded tree is read back equal, and its literal data repeats no member name,
exactly if none of these comes beside a parameter of the same name (`expand_readBack`).
-/

namespace ComponentTree

variable {σ : Type}

/-- A record that gets its owner gets a component and a variant. -/
theorem Engine.resolveOwner_eq (e : Engine σ) (r : Record) (owner : Owner) :
    ∃ component variant, (e.resolveOwner r owner).1 = { r with component, variant } := by
  unfold resolveOwner
  split
  · exact ⟨_, _, rfl⟩
  · split
    · exact ⟨_, _, rfl⟩
    · cases r; exact ⟨_, _, rfl⟩

/-! ### Engines without rules -/

namespace Engine

variable {e : Engine σ} {site : Site} {P : Node → Prop}

/-- What a pass does with the node at a site if no record is matched by rules. -/
inductive Fills (e : Engine σ) (site : Site) : Node → Deed → Prop
  | opened (items : List Node) : Fills e site (.list items) (.opened items)
  | kept {found r : Record} {owner : Owner} (hr : e.resolveOwner found site.owner = (r, owner)) :
      Fills e site (.record found) (.kept found r owner)
  | passed {node : Node} (h : node.isInner = false) : Fills e site node (.passed node)

theorem does_fills (hrules : ∀ component variant part,
      e.rulebook.resolve component variant part = none) (run : Pass → Run σ Pass) {pass : Pass}
    {node : Node} (hn : pass.tree.at? site.path = some node)
    (hg : e.options.refuses site.count.rounds = false) (w : World σ) :
    ∃ deed w', e.Does run pass site w deed w' ∧ e.Fills site node deed := by
  cases node with
  | list items => exact ⟨_, w, .opened hn, .opened items⟩
  | record found =>
    rcases hr : e.resolveOwner found site.owner with ⟨r, owner⟩
    refine ⟨.kept found r owner, ?_⟩
    cases hc : r.component with
    | none => exact ⟨w, .plain hn hr hc, .kept hr⟩
    | some component =>
      cases hs : r.rendering.stopped with
      | true => exact ⟨_, .stopped hn hr hc hg hs, .kept hr⟩
      | false =>
        refine ⟨arrive pass site r owner component w, .kept hn hr hc hg hs ?_, .kept hr⟩
        rw [applyRules, hrules]
        rfl
  | _ => exact ⟨_, w, .passed hn rfl, .passed rfl⟩

namespace Fills

variable {node : Node} {deed : Deed}

theorem turns_lt (h : e.Fills site node deed) : Node.turnsAll (deed.queued false) < node.turns := by
  cases h with
  | opened items => exact Node.turnsAll_inside_lt items
  | @kept found r owner hr =>
    rw [Deed.queued_kept, content_of_resolveOwner hr]
    exact Node.turnsAll_content_lt found
  | passed => exact Nat.le_max_left _ _

theorem replaces (h : e.Fills site node deed) : deed.replaces = false := by
  cases h <;> rfl

/-- What an owner does not change still holds throughout the tree. -/
theorem throughout (h : e.Fills site node deed) (hP : Node.OfSurface P)
    (howner : ∀ r inherited, P (.record r) → P (.record (e.resolveOwner r inherited).1))
    {pass : Pass} (hn : pass.tree.at? site.path = some node) (ht : pass.tree.Throughout P) :
    (pass.after site deed).tree.Throughout P := by
  cases h with
  | opened | passed => exact ht
  | @kept found r owner hr =>
    obtain ⟨hfound, hcontent⟩ := Node.throughout_record_iff.mp (ht.at? hn)
    have hr' := howner found site.owner hfound
    rw [hr] at hr'
    rw [← content_of_resolveOwner hr] at hcontent
    rw [Pass.after_kept_tree]
    refine ht.put hP ?_ site.path
    unfold Record.settledIn
    split
    · exact Node.throughout_record_iff.mpr ⟨hr', hcontent⟩
    · exact Node.throughout_record_iff.mpr ⟨hP.content r _ hr', hcontent.flattenContent hP⟩

end Fills

/-- A pass over a whole tree in which no place was looked at twice, and throughout which a property
holds. -/
structure Filling (P : Node → Prop) (pass : Pass) : Prop where
  sound : pass.Sound
  whole : pass.rootOnly = false
  rounds : ∀ s ∈ pass.queue, s.rounds = 0
  throughout : pass.tree.Throughout P

/-- Without rules a pass runs down, and what an owner does not change still holds throughout its
tree. -/
theorem runsDown_of_no_rules (hb : e.rulebook.Built) (hrules : e.rulebook.rules = [])
    (hg : e.options.refuses 1 = false) (hP : Node.OfSurface P)
    (howner : ∀ r inherited, P (.record r) → P (.record (e.resolveOwner r inherited).1)) :
    e.RunsDown (fun pass _ => Filling P pass) fun pass => Node.turnsAll pass.pending where
  sound h := h.sound
  turn := by
    intro fuel pass w site queue node h hq hn _
    have hcount : e.options.refuses site.count.rounds = false := by
      rwa [Site.count, h.rounds site (hq ▸ List.mem_cons_self ..)]
    have hfront : Node.at? site.path { pass with queue }.tree = some node := hn
    obtain ⟨deed, w', hd, hfills⟩ :=
      does_fills (hb.resolve_of_no_rules hrules) (e.runPass fuel) hfront hcount w
    refine ⟨deed, w', hd, ?_, ?_⟩
    · refine ⟨h.sound.turn hq hd, (Pass.after_rootOnly ..).trans h.whole, ?_,
        hfills.throughout hP howner hfront h.throughout⟩
      rw [Pass.after_queue, List.forall_mem_append]
      exact ⟨fun s hs => h.rounds s (hq ▸ List.mem_cons_of_mem _ hs),
        fun s hs => Deed.sites_rounds hfills.replaces hs⟩
    · refine hd.turnsAll_pending_lt h.sound hq hn ?_
      rw [h.whole]
      exact hfills.turns_lt

/-- Without rules an expansion ends with a tree if the guard lets records come up once, and what an
owner does not change holds throughout that tree if it holds throughout the root. -/
theorem expand_throughout_of_admits (hb : e.rulebook.Built) (hrules : e.rulebook.rules = [])
    (hg : e.options.refuses 1 = false) (hP : Node.OfSurface P)
    (howner : ∀ r inherited, P (.record r) → P (.record (e.resolveOwner r inherited).1))
    {root : Node} (h : root.Throughout P) (nextKey : Key) (memory : σ) :
    ∃ x tree, e.EndsWith nextKey memory root x ∧ x.answer = .ok tree ∧ tree.Throughout P := by
  have hstart : Filling P (.start 0 {} false root) := by
    refine ⟨Pass.start_sound 0 {} false root, rfl, fun s hs => ?_, h⟩
    rw [List.mem_singleton.mp hs]
  obtain ⟨final, w', hrun, hfinal, -⟩ :=
    (runsDown_of_no_rules hb hrules hg hP howner).runPass _ hstart (Nat.lt_succ_self _)
  obtain ⟨x, hx, hanswer, -⟩ := endsWith_of_runPass hrun (by rintro ⟨⟩)
  exact ⟨x, final.tree, hx, hanswer, hfinal.throughout⟩

/-- Without rules every expansion ends, and with a tree if the guard lets records come up once. What
an owner does not change holds throughout the tree if it holds throughout the root. -/
theorem expand_throughout (hb : e.rulebook.Built) (hrules : e.rulebook.rules = [])
    (hP : Node.OfSurface P)
    (howner : ∀ r inherited, P (.record r) → P (.record (e.resolveOwner r inherited).1))
    {root : Node} (h : root.Throughout P) (nextKey : Key) (memory : σ) :
    ∃ x, e.EndsWith nextKey memory root x ∧
      (e.options.refuses 1 = false → ∃ tree, x.answer = .ok tree) ∧
      ∀ tree, x.answer = .ok tree → tree.Throughout P := by
  cases hg : e.options.refuses 1 with
  | false =>
    obtain ⟨x, tree, hx, hanswer, htree⟩ :=
      expand_throughout_of_admits hb hrules hg hP howner h nextKey memory
    refine ⟨x, hx, fun _ => ⟨tree, hanswer⟩, fun tree' hanswer' => ?_⟩
    rw [hanswer] at hanswer'
    exact Except.ok.inj hanswer' ▸ htree
  | true =>
    -- without the guard there is a tree, and the guard stops the expansion or changes nothing
    have hpasses : e.PassesOn := by
      intro rule body hbody
      rw [Rulebook.body?, hrules] at hbody
      cases hbody
    have hoff : ∀ n, (e.setGuard false).options.refuses n = false := Options.refuses_of_off rfl
    obtain ⟨y, tree, ⟨hends, n, hn⟩, hanswer, htree⟩ :=
      expand_throughout_of_admits (e := e.setGuard false) hb hrules (hoff 1) hP howner h nextKey
        memory
    have hsame := hpasses.expand_sameAs (e.setGuard false).options rfl
      (fun n hn => absurd hn (Bool.eq_false_iff.mp (hoff n))) n nextKey memory root
    have hy : (e.setOptions (e.setGuard false).options).expand n nextKey memory root = y :=
      hn n (Nat.le_refl n)
    rw [hy] at hsame
    refine ⟨e.expand n nextKey memory root, endsWith_of_answer ?_,
      fun hadmits => Bool.noConfusion hadmits, fun tree' hanswer' => ?_⟩
    · rcases hsame with hdiverged | hsame
      · exact hdiverged.ne_exhausted
      · exact hsame.answer ▸ hends
    · rcases hsame with ⟨label, limit, hdiverged⟩ | hsame
      · rw [hanswer'] at hdiverged
        cases hdiverged
      · rw [← hsame.answer, hanswer'] at hanswer
        exact Except.ok.inj hanswer ▸ htree

/-! ### Trees that were read, expanded, and read back -/

end Engine

/-- No parameter has the name of a field that an owner fills in. -/
def Record.SparesOwner (r : Record) : Prop :=
  "component" ∉ r.params.keys ∧ "variant" ∉ r.params.keys

instance (r : Record) : Decidable r.SparesOwner := inferInstanceAs (Decidable (_ ∧ _))

theorem Record.OfData.isUnambiguous {r : Record} (h : r.OfData) (hr : r.SparesOwner) :
    r.IsUnambiguous := fun name hname =>
  h.beside name hname (ne_of_mem_of_not_mem hname hr.1) (ne_of_mem_of_not_mem hname hr.2)

namespace Engine

variable {e : Engine σ}

/-- Settling the owner leaves a record as in data. -/
theorem ofData_resolveOwner (e : Engine σ) {r : Record} (h : r.OfData) (inherited : Owner) :
    (e.resolveOwner r inherited).1.OfData := by
  obtain ⟨component, variant, heq⟩ := e.resolveOwner_eq r inherited
  obtain ⟨hparams, hbeside, hmixins, hbare, hrendering⟩ := h
  rw [heq]
  refine ⟨hparams, fun name hname hcomponent hvariant => ?_, hmixins, hbare, hrendering⟩
  have hunset := hbeside name hname hcomponent hvariant
  unfold Record.isUnset at hunset ⊢
  rw [if_neg hcomponent] at hunset ⊢
  rwa [if_neg hvariant] at hunset ⊢

theorem sparesOwner_resolveOwner (e : Engine σ) {r : Record} (h : r.SparesOwner)
    (inherited : Owner) : (e.resolveOwner r inherited).1.SparesOwner := by
  obtain ⟨component, variant, heq⟩ := e.resolveOwner_eq r inherited
  rw [heq]
  exact h

/-- An expanded tree can be read back unless an owner comes beside a parameter. Let a tree be read
from literal data, whatever identities its records are given, and be expanded by an engine without
rules, whatever default variants and options it has. The expansion ends, and with a tree unless the
guard refuses even the first time that a record comes up. What is read from the literal data of that
tree is equal to the tree exactly if in no record a parameter has the name of a field that is set,
and exactly then no member name is repeated in the literal data. It is so whenever no record of the
tree that was read has a parameter with the name `component` or `variant`. -/
theorem expand_readBack (hb : e.rulebook.Built) (hrules : e.rulebook.rules = []) {v : Literal}
    (hv : v.isDistinct = true) {root : Node} (hroot : root.anonymous = .ofLiteral v)
    (nextKey : Key) (memory : σ) :
    ∃ x, e.EndsWith nextKey memory root x ∧
      (e.options.refuses 1 = false → ∃ tree, x.answer = .ok tree) ∧
      ∀ tree, x.answer = .ok tree →
        (tree.readBack.same tree = true ↔ tree.IsUnambiguous) ∧
        (tree.toLiteral.isDistinct = true ↔ tree.IsUnambiguous) ∧
        ((∀ path r, root.at? path = some (.record r) → r.SparesOwner) → tree.IsUnambiguous) := by
  -- the assumption of the last part is carried along the run
  let spared : Prop := ∀ path r, root.at? path = some (.record r) → r.SparesOwner
  let P (n : Node) : Prop := n.OfData ∧ Node.OfRecord (fun r => spared → r.SparesOwner) n
  have hsurface : Node.OfSurface P := Node.ofSurface_ofData.and (.ofRecord fun _ _ h => h)
  have howner : ∀ r inherited, P (.record r) → P (.record (e.resolveOwner r inherited).1) :=
    fun r inherited h => ⟨e.ofData_resolveOwner h.1 inherited, Node.ofRecord_record.mpr
      fun hs => e.sparesOwner_resolveOwner (Node.ofRecord_record.mp h.2 hs) inherited⟩
  have hthroughout : root.Throughout P := fun path n hn =>
    ⟨Node.throughout_ofData hv hroot path n hn, fun r hr hs => hs path r (hr ▸ hn)⟩
  obtain ⟨x, hx, hok, htree⟩ :=
    expand_throughout hb hrules hsurface howner hthroughout nextKey memory
  refine ⟨x, hx, hok, fun tree hanswer => ?_⟩
  have hall := htree tree hanswer
  obtain ⟨hsame, hdistinct⟩ := Node.readBack_iff (hall.imp fun _ h => h.1)
  refine ⟨hsame, hdistinct, fun hs path r hr => ?_⟩
  obtain ⟨hdata, hspares⟩ := hall path _ hr
  exact Record.OfData.isUnambiguous hdata (hspares r rfl hs)

end Engine

/-- Data of a card with a title in a list of its own. The title gets the component of the card, and
both get the default variant. -/
def Literal.card : Literal :=
  .object [("component", .string "card"), ("content", .array [.string "a",
    .array [.object [("part", .string "title"), ("size", .array [.null])]]])]

/-- The card with identities. -/
def Node.card : Node := (Node.ofLiteral .card).reissue 1 |>.1

/-- An engine without rules and with a default variant for cards. -/
def Engine.plainCards : Engine Unit := ({} : Engine Unit).setDefaultVariant "card" "wide"

theorem Engine.expand_readBack_card : plainCards.rulebook.Built ∧
    plainCards.rulebook.rules = [] ∧ Literal.card.isDistinct = true ∧
    Node.card.anonymous = .ofLiteral .card ∧
    ∃ x tree, plainCards.EndsWith 3 () .card x ∧ x.answer = .ok tree ∧
      tree.readBack.same tree = true ∧ tree.toLiteral.isDistinct = true := by
  have hb : plainCards.rulebook.Built := .setDefaultVariant .empty _ _
  have hv : Literal.card.isDistinct = true := by decide +kernel
  have hroot : Node.card.anonymous = .ofLiteral .card := by rfl
  have hspares : ∀ path r, Node.card.at? path = some (.record r) → r.SparesOwner :=
    fun path r hr => of_decide_eq_true (Node.allRecords_at?
      (p := fun r => decide r.SparesOwner) (by decide +kernel) hr)
  obtain ⟨x, hx, hok, htree⟩ := expand_readBack hb rfl hv hroot 3 ()
  obtain ⟨tree, hanswer⟩ := hok rfl
  obtain ⟨hsame, hdistinct, hfree⟩ := htree tree hanswer
  exact ⟨hb, rfl, hv, hroot, x, tree, hx, hanswer, hsame.mpr (hfree hspares),
    hdistinct.mpr (hfree hspares)⟩

/-- Data of a card with a title whose component is a number, which makes it a parameter. -/
def Literal.shadowedCard : Literal :=
  .object [("component", .string "card"), ("content", .object [("part", .string "title"),
    ("component", .number (.integer ⟨7, by decide⟩))])]

/-- The title belongs to the card, and its literal data has its component twice. What is read back
is a title without a component. -/
theorem Engine.expand_readBack_shadowed :
    Literal.shadowedCard.isDistinct = true ∧ ∃ x tree,
      ({} : Engine Unit).EndsWith 1 () (.ofLiteral .shadowedCard) x ∧ x.answer = .ok tree ∧
        tree.toLiteral.isDistinct = false ∧ tree.readBack.same tree = false := by
  have hv : Literal.shadowedCard.isDistinct = true := by decide +kernel
  have hrun : (({} : Engine Unit).expand 3 1 () (.ofLiteral .shadowedCard)).answer.toOption.map
      (fun tree => (tree.toLiteral.isDistinct, tree.readBack.same tree)) =
        some (false, false) := by decide +kernel
  cases hanswer : (({} : Engine Unit).expand 3 1 () (.ofLiteral .shadowedCard)).answer with
  | error => rw [hanswer] at hrun; cases hrun
  | ok tree =>
    rw [hanswer] at hrun
    obtain ⟨hdistinct, hsame⟩ := Prod.mk.inj (Option.some.inj hrun)
    have hends : ({} : Engine Unit).EndsWith 1 () (.ofLiteral .shadowedCard) _ :=
      endsWith_of_answer (n := 3) (by rw [hanswer]; rintro ⟨⟩)
    exact ⟨hv, _, tree, hends, hanswer, hdistinct, hsame⟩

end ComponentTree
