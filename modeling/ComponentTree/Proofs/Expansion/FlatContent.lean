import ComponentTree.Proofs.Expansion.Fixpoint
import ComponentTree.Proofs.Expansion.Fuel
import ComponentTree.Proofs.Tree.Flat
import Mathlib

/-!
Expanded content is flat.

Content is flattened when its record is kept, and only then; rules write what they like, and passes
for a record alone leave content as it is. So content is not flat in general while a pass goes on,
but it is where no queued path leads: such a record was kept, and what later came to stand in its
content is a record that was kept or a replacement (`FlatWhereDone.turn`). Main statement
(`expand_flat`): if no rule answers with a list, every record in the answer of an expansion has flat
content. It is enough that no list takes the place of a record in that expansion (`PlacesNoList`),
which is so if no rule ever answers with a list (`AnswersNoList.placesNoList`).
-/

namespace ComponentTree

variable {σ : Type}

/-- What a deed puts in the place of a record is no list, unless a list replaces the record. -/
theorem Deed.isList_node {rootOnly : Bool} {deed : Deed} {node : Node}
    (hl : ∀ found left tree owner, deed = .replaced found left tree owner → tree.isList = false)
    (hleaves : deed.leaves?.isSome) (hn : deed.node? rootOnly = some node) :
    node.isList = false := by
  cases deed with
  | missed | opened | passed => cases hleaves
  | kept => cases hn; rfl
  | replaced found left tree owner => cases hn; exact hl found left _ owner rfl

/-- The records to which no queued path leads have flat content. -/
def Pass.FlatWhereDone (pass : Pass) : Prop :=
  ∀ path r, pass.tree.at? path = some (.record r) → ¬ pass.Covers path → r.content.isFlat = true

/-- A turn of a pass over a whole tree keeps content flat where the pass is done. -/
theorem Pass.FlatWhereDone.turn {e : Engine σ} {fuel : Nat} {pass : Pass} {site : Site}
    {queue : List Site} {deed : Deed} {w w' : World σ} (h : pass.FlatWhereDone)
    (hsound : pass.Sound) (hro : pass.rootOnly = false) (hq : pass.queue = site :: queue)
    (hd : e.Does (e.runPass fuel) { pass with queue } site w deed w')
    (hl : ∀ found left tree owner, deed = .replaced found left tree owner → tree.isList = false) :
    (after { pass with queue } site deed).FlatWhereDone := by
  intro path r hr hn
  have hscope : Path.InScope pass.rootOnly path := fun h => by rw [hro] at h; cases h
  rcases hsound.record_after hq hd hscope hr hn with
    ⟨-, found, left, owner, -, rfl⟩ | ⟨hn₀, r₀, h₀, -, hcontent⟩
  · rw [hro]
    exact left.content.isFlat_flattenContent
  · have hflat := h path r₀ h₀ hn₀
    rcases hcontent with hc | ⟨rest, node, -, hleaves, hnode, hc⟩ <;> rw [hc]
    · exact hflat
    · exact Node.isFlat_put (Deed.isList_node hl hleaves hnode) hflat rest

namespace Engine

variable {e : Engine σ}

/-- A pass over a whole tree in which no list takes the place of a record has flat content where it
is done, at every turn. -/
theorem Reaches.flatWhereDone {limit number : Nat} {owner : Owner} {root : Node} {pass : Pass}
    {w₀ w : World σ} {turns : List Turn}
    (h : e.Reaches limit (.start number owner false root) w₀ turns pass w)
    (hl : ∀ site found left tree owner, ⟨site, .replaced found left tree owner⟩ ∈ turns →
      tree.isList = false) : pass.FlatWhereDone := by
  induction h with
  | start => exact fun path _ _ hn => absurd ⟨_, List.mem_singleton_self _, List.nil_prefix⟩ hn
  | @turn _ _ _ _ site _ _ _ hreach hq _ hd ih =>
    refine (ih fun site found left tree owner hm => hl _ _ _ _ _ (List.mem_cons_of_mem _ hm)).turn
      hreach.sound hreach.rootOnly_eq hq hd ?_
    rintro found left tree owner rfl
    exact hl _ _ _ _ _ (List.mem_cons_self ..)

/-! ### Rules that answer with no list -/

/-- In the expansion of a tree, no rule answers with a list that takes the place of a record. -/
def PlacesNoList (e : Engine σ) (nextKey : Key) (memory : σ) (root : Node) : Prop :=
  ∀ limit turns pass w, e.Reaches limit (.start 0 {} false root)
      { nextKey, nextId := e.nextId, memory, ledger := { passes := 1 } } turns pass w →
    ∀ site found left tree owner, ⟨site, .replaced found left tree owner⟩ ∈ turns →
      tree.isList = false

/-- If no rule answers with a list that takes the place of a record, every record in the answer of
an expansion, stopped or not, has content that is not a list with a list among its items. -/
theorem expand_flat {fuel : Nat} {nextKey : Key} {memory : σ} {root tree : Node}
    (hl : e.PlacesNoList nextKey memory root)
    (h : (e.expand fuel nextKey memory root).answer = .ok tree) {path : Path} {r : Record}
    (hr : tree.at? path = some (.record r)) : r.content.isFlat = true := by
  rcases hp : e.runPass fuel (.start 0 {} false root)
    { nextKey, nextId := e.nextId, memory, ledger := { passes := 1 } } with ⟨s | pass, w⟩
  · rw [(expand_eq_runPass hp).1] at h
    cases h
  · rw [(expand_eq_runPass hp).1] at h
    obtain rfl : pass.tree = tree := Except.ok.inj h
    obtain ⟨turns, hreach, hq⟩ := runPass_reaches (Nat.le_refl fuel) .start hp
    refine hreach.flatWhereDone (hl fuel turns pass w hreach) path r hr ?_
    rintro ⟨s, hs, -⟩
    rw [hq] at hs
    cases hs

/-- No rule ever answers with a list, whatever record and world it is given. -/
def AnswersNoList (e : Engine σ) : Prop :=
  ∀ rule body, e.rulebook.body? rule = some body → ∀ fuel position record w items c w',
    e.runBody (e.runPass fuel) body position record w ≠ (.ok (some (.list items), c), w')

theorem Ran.isList_replacement (ha : e.AnswersNoList) {fuel number : Nat} {site : Site} {key : Key}
    {rules : List RuleId} {r left : Record} {tree : Node} {w w' : World σ}
    (h : e.Ran (e.runPass fuel) number site key rules r w (.replaced left tree) w') :
    tree.isList = false := by
  generalize hv : Verdict.replaced left tree = v at h
  induction h with
  | done => cases hv
  | marked _ _ ih => exact ih hv
  | missing _ _ _ ih => exact ih hv
  | stopped => cases hv
  | went _ _ _ _ _ _ ih => exact ih hv
  | @replaced rule _ _ _ _ body answer _ _ _ hb hx hr =>
    cases hv
    cases answer with
    | none => cases hr
    | some n =>
      rw [replacement?, Option.ite_none_left_eq_some, Option.some.injEq] at hr
      obtain ⟨-, rfl⟩ := hr
      cases n with
      | list items => exact absurd hx (ha rule body hb _ _ _ _ _ _ _)
      | _ => rfl

theorem AnswersNoList.placesNoList (ha : e.AnswersNoList) (nextKey : Key) (memory : σ)
    (root : Node) : e.PlacesNoList nextKey memory root := by
  intro limit turns pass w h site found left tree owner hm
  induction h with
  | start => cases hm
  | turn _ _ _ hd ih =>
    rcases List.mem_cons.mp hm with heq | hm
    · cases heq
      cases hd with
      | replaced _ _ _ _ _ hv =>
        rcases applyRules_eq_ok hv with ⟨-, hkept, -⟩ | ⟨_, _, -, hran⟩
        · cases hkept
        · exact hran.isList_replacement ha
    · exact ih hm

end Engine

/-- A lid with nested lists for its content. -/
def Record.lid : Record :=
  { Record.blank with
    key := 2
    component := some "lid"
    content := .list [.list [.text "a", .list [.text "b"]]] }

/-- An engine with two rules for a box and one for a lid. The newer rule for a box runs the other
one ahead and stops the box; the other one puts a lid into a list in a list. A lid is put into the
content of a plain record. -/
def Engine.packing : Engine Unit where
  rulebook := (((({} : Rulebook Unit).register [⟨"box", .none, none⟩]
    (.write (.content (.list [.list [.record .lid], .text "c"])) (.done none))).1.register
    [⟨"box", .none, none⟩] (.runAhead fun _ => .write .stop (.done none))).1.register
    [⟨"lid", .none, none⟩] (.look fun c =>
      .done (some (.record { Record.blank with key := 3, content := c.tree })))).1

theorem Engine.packing_answersNoList : packing.AnswersNoList := by
  intro rule body hb fuel position record w items c w' h
  match rule with
  | 0 => obtain rfl := Option.some.inj hb; cases h
  | 1 =>
    obtain rfl := Option.some.inj hb
    unfold runBody RuleM.exec at h
    obtain ⟨r, w₁, -, h⟩ := Run.bind_eq_ok h
    cases r <;> cases h
  | 2 => obtain rfl := Option.some.inj hb; cases h
  | _ + 3 => cases hb

/-- The content of the box, which is stopped, and that of the lid have become flat. -/
theorem Engine.packing_flat : packing.PlacesNoList 3 () (.record .box) ∧ ∃ tree box lid,
    (packing.expand 9 3 () (.record .box)).answer = .ok tree ∧
      tree.at? [] = some (.record box) ∧ box.rendering.stopped = true ∧
      box.content.isFlat = true ∧ tree.at? [.content, .item 0, .content] = some (.record lid) ∧
      lid.component = some "lid" ∧ lid.content.isFlat = true := by
  have hplaces := packing_answersNoList.placesNoList 3 () (.record .box)
  have hbox : ((packing.expand 9 3 () (.record .box)).record? []).map
      (·.rendering.stopped) = some true := by cbv
  have hlid : ((packing.expand 9 3 () (.record .box)).record? [.content, .item 0, .content]).map
      (·.component) = some (some "lid") := by cbv
  obtain ⟨box, hb, hstopped⟩ := Option.map_eq_some_iff.mp hbox
  obtain ⟨lid, hl, hcomponent⟩ := Option.map_eq_some_iff.mp hlid
  obtain ⟨tree, ha, hb⟩ := Expansion.record?_eq_some hb
  have hl := Expansion.at?_of_record? ha hl
  exact ⟨hplaces, tree, box, lid, ha, hb, hstopped, expand_flat hplaces ha hb, hl, hcomponent,
    expand_flat hplaces ha hl⟩

end ComponentTree
