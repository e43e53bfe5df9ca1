import ComponentTree.Proofs.Expansion.BreadthFirst
import ComponentTree.Proofs.Expansion.FlatContent
import ComponentTree.Proofs.Expansion.Recycling
import ComponentTree.Proofs.Markup.Flat

/-!
Trees without components.

No rule can start on a tree in which no record has a component or a part. A pass over it opens
lists and keeps records (`Deed.Idles`), so all it does is to flatten content, and this does not show
in the markup (`Idles.markup`). It leaves the world as it is at every turn, and it ends, since each
turn leaves less to look at (`Pass.Idle.runsDown`). Main statement: the markup of the expanded tree
is that of the tree itself, whatever the engine is like (`expand_plain`).
-/

namespace ComponentTree

variable {σ : Type}

namespace Node

/-- No record to which expansion can go has a component or a part. -/
def IsPlain (t : Node) : Prop := ∀ path r, t.at? path = some (.record r) → r.IsPlain

theorem isPlain_iff_throughout {t : Node} : t.IsPlain ↔ t.Throughout (OfRecord Record.IsPlain) :=
  throughout_ofRecord.symm

theorem ofSurface_isPlain : OfSurface (OfRecord Record.IsPlain) := .ofRecord fun _ _ h => h

theorem IsPlain.put {new t : Node} (h : t.IsPlain) (hnew : new.IsPlain) (path : Path) :
    (Node.put new path t).IsPlain :=
  isPlain_iff_throughout.mpr
    ((isPlain_iff_throughout.mp h).put ofSurface_isPlain (isPlain_iff_throughout.mp hnew) path)

theorem IsPlain.flattenContent {n : Node} (h : n.IsPlain) : n.flattenContent.IsPlain :=
  isPlain_iff_throughout.mpr ((isPlain_iff_throughout.mp h).flattenContent ofSurface_isPlain)

theorem isPlain_record_iff {r : Record} :
    (record r).IsPlain ↔ r.IsPlain ∧ r.content.IsPlain := by
  rw [isPlain_iff_throughout, isPlain_iff_throughout, throughout_record_iff, ofRecord_record]

theorem IsPlain.at? {t n : Node} {path : Path} (h : t.IsPlain) (hn : t.at? path = some n) :
    n.IsPlain :=
  isPlain_iff_throughout.mpr ((isPlain_iff_throughout.mp h).at? hn)

theorem IsPlain.settledIn {r : Record} (h : (record r).IsPlain) (rootOnly : Bool) :
    (record (r.settledIn rootOnly)).IsPlain := by
  unfold Record.settledIn
  split
  · exact h
  · obtain ⟨hr, hcontent⟩ := isPlain_record_iff.mp h
    exact isPlain_record_iff.mpr ⟨hr, hcontent.flattenContent⟩

end Node

/-- What a pass does with a node when no rule can start there: a record is kept as it was found. -/
inductive Deed.Idles : Node → Deed → Prop
  | opened (items : List Node) : Idles (.list items) (.opened items)
  | kept (r : Record) (owner : Owner) : Idles (.record r) (.kept r r owner)
  | passed {node : Node} (h : node.isInner = false) : Idles node (.passed node)

/-- The world stays as it is at a plain node. -/
theorem Engine.does_plain (e : Engine σ) (run : Pass → Run σ Pass) {pass : Pass} {site : Site}
    {node : Node} (hn : pass.tree.at? site.path = some node) (hp : node.IsPlain) (w : World σ) :
    ∃ deed, e.Does run pass site w deed w ∧ deed.Idles node := by
  cases node with
  | list items => exact ⟨_, .opened hn, .opened items⟩
  | record r =>
    have hr := (Node.isPlain_record_iff.mp hp).1
    exact ⟨_, .plain hn (Engine.resolveOwner_of_plain hr site.owner) hr.1, .kept r site.owner⟩
  | _ => exact ⟨_, .passed hn rfl, .passed rfl⟩

namespace Deed.Idles

variable {node : Node} {deed : Deed} {pass : Pass} {site : Site}

/-- No list takes the place of a record. -/
theorem isList_replacement (h : Deed.Idles node deed) :
    ∀ found left tree owner, deed = .replaced found left tree owner → tree.isList = false := by
  rintro found left tree owner rfl
  cases h

/-- What is queued takes fewer turns than the node. -/
theorem turns_lt (h : Deed.Idles node deed) : Node.turnsAll (deed.queued false) < node.turns := by
  cases h with
  | opened items => exact Node.turnsAll_inside_lt items
  | kept r owner => exact Node.turnsAll_content_lt r
  | passed => exact Nat.le_max_left _ _

/-- The tree is still plain. -/
theorem isPlain (h : Deed.Idles node deed) (hn : pass.tree.at? site.path = some node)
    (hp : pass.tree.IsPlain) : (pass.after site deed).tree.IsPlain := by
  cases h with
  | opened | passed => exact hp
  | kept r owner =>
    rw [Pass.after_kept_tree]
    exact hp.put ((hp.at? hn).settledIn _) site.path

/-- The markup of the tree stays the same: the record that is kept is written with flattened
content where it was written before. -/
theorem markup (h : Deed.Idles node deed) (hn : pass.tree.at? site.path = some node) :
    Markup.render (pass.after site deed).tree = Markup.render pass.tree := by
  cases h with
  | opened | passed => rfl
  | kept r owner =>
    have hsettled : Markup.render (.record (r.settledIn pass.rootOnly)) =
        Markup.render (.record r) := by
      unfold Record.settledIn
      split
      · rfl
      · exact Markup.render_record_content (Markup.render_flattenContent r.content)
    rw [Pass.after_kept_tree]
    refine Markup.render_put fun n hn' => ?_
    rw [hn, Option.some.injEq] at hn'
    rw [hsettled, hn']

end Deed.Idles

/-! ### Passes in which no rule starts -/

/-- A pass over a whole plain tree with the given markup. -/
structure Pass.Idle (markup : String) (pass : Pass) : Prop where
  sound : pass.Sound
  whole : pass.rootOnly = false
  plain : pass.tree.IsPlain
  flat : pass.FlatWhereDone
  written : Markup.render pass.tree = markup

namespace Pass.Idle

variable {markup : String} {pass : Pass}

theorem start (number : Nat) (owner : Owner) {root : Node} (h : root.IsPlain) :
    Pass.Idle (Markup.render root) (.start number owner false root) where
  sound := Pass.start_sound number owner false root
  whole := rfl
  plain := h
  flat _ _ _ hn := absurd ⟨_, List.mem_singleton_self _, List.nil_prefix⟩ hn
  written := rfl

/-- An idle pass stays idle and leaves the world as it is, and every turn leaves less to look
at. -/
theorem runsDown (e : Engine σ) (w₀ : World σ) (markup : String) :
    e.RunsDown (fun pass w => pass.Idle markup ∧ w = w₀)
      fun pass => Node.turnsAll pass.pending where
  sound h := h.1.sound
  turn := by
    rintro fuel pass w site queue node ⟨h, rfl⟩ hq hn -
    have hfront : Node.at? site.path { pass with queue }.tree = some node := hn
    obtain ⟨deed, hd, hidles⟩ := e.does_plain (e.runPass fuel) hfront (h.plain.at? hn) w
    refine ⟨deed, w, hd, ⟨?_, rfl⟩, ?_⟩
    · exact {
        sound := h.sound.turn hq hd
        whole := (after_rootOnly ..).trans h.whole
        plain := hidles.isPlain hfront h.plain
        flat := h.flat.turn h.sound h.whole hq hd hidles.isList_replacement
        written := (hidles.markup hfront).trans h.written }
    · refine hd.turnsAll_pending_lt h.sound hq hn ?_
      rw [h.whole]
      exact hidles.turns_lt

/-- When nothing waits any more, all content is flat. -/
theorem isFlat_of_done (h : pass.Idle markup) (hq : pass.queue = []) {path : Path} {r : Record}
    (hr : pass.tree.at? path = some (.record r)) : r.content.isFlat = true := by
  refine h.flat path r hr ?_
  rintro ⟨s, hs, -⟩
  rw [hq] at hs
  cases hs

end Pass.Idle

/-- Plain markup passes through. Whatever rules, default variants and options an engine has, the
expansion of a tree in which no record has a component or a part ends with an answer: nothing comes
up, so no rule starts and the guard never refuses anything, and the engine, the memory and the
counters are left as they were. In the answer all content is flat, but its markup is that of the
tree. For the markup of any tree does not change when a list in it is flattened. -/
theorem Engine.expand_plain (e : Engine σ) (nextKey : Key) (memory : σ) :
    (∀ root : Node, root.IsPlain → ∃ x tree, e.EndsWith nextKey memory root x ∧
      x = ⟨.ok tree, e, nextKey, memory, { marks := [], passes := 1, journal := [] }⟩ ∧
      (∀ path r, tree.at? path = some (.record r) → r.content.isFlat = true) ∧
      x.markup = .ok (Markup.render root)) ∧
    ∀ (t : Node) path items, t.at? path = some (.list items) →
      Markup.render (Node.put (.list (Node.flatten items)) path t) = Markup.render t := by
  constructor
  · intro root hplain
    let w : World σ := { nextKey, nextId := e.nextId, memory, ledger := { passes := 1 } }
    have hidle := Pass.Idle.start 0 {} hplain
    obtain ⟨final, _, hrun, ⟨hfinal, rfl⟩, hdone⟩ :=
      (Pass.Idle.runsDown e w _).runPass _ ⟨hidle, rfl⟩ (Nat.lt_succ_self _)
    have hx := expand_of_runPass hrun
    refine ⟨_, final.tree, endsWith_of_answer ?_, hx, fun _ _ => hfinal.isFlat_of_done hdone, ?_⟩
    · rw [hx]
      rintro ⟨⟩
    · rw [hx]
      exact congrArg Except.ok hfinal.written
  · intro t path items hitems
    refine Markup.render_put fun n hn => ?_
    rw [hitems, Option.some.injEq] at hn
    rw [← hn]
    exact Markup.render_flatten items

/-- Markup with lists in lists, an absent entry, and an element that is written without content. -/
def Node.article : Node :=
  .record { Record.blank with
    key := 1
    content := .list [.text "a", .list [.absent, .list [.record { Record.blank with
        key := 2
        content := .text "not written"
        rendering := { tag := some "br" } }]],
      .record { Record.blank with key := 3, content := .list [.list [.text "b"]] }] }

/-- An engine with rules for boxes and lids, whose guard refuses every record that comes up. -/
def Engine.refusing : Engine Unit :=
  { Engine.packing with options := { divergenceGuard := true, divergenceLimit := 0 } }

theorem Engine.expand_plain_article : Node.article.IsPlain ∧
    (∃ x tree, refusing.EndsWith 4 () .article x ∧ x.answer = .ok tree ∧ x.ledger.journal = [] ∧
      (∀ path r, tree.at? path = some (.record r) → r.content.isFlat = true) ∧
      x.markup = .ok "<div>a<br/><div>b</div></div>") ∧
    ∃ items, Node.article.at? [.content] = some (.list items) ∧
      Markup.render (Node.put (.list (Node.flatten items)) [.content] .article) =
        "<div>a<br/><div>b</div></div>" := by
  have hmarkup : Markup.render .article = "<div>a<br/><div>b</div></div>" := by decide
  have hrecords : Node.article.allRecords (fun r => decide r.IsPlain) = true := by decide
  have hplain : Node.article.IsPlain := fun path r hr =>
    of_decide_eq_true (Node.allRecords_at? hrecords hr)
  obtain ⟨hexpand, hflatten⟩ := refusing.expand_plain 4 ()
  obtain ⟨x, tree, hends, hx, hflat, hwritten⟩ := hexpand .article hplain
  refine ⟨hplain, ⟨x, tree, hends, by rw [hx], by rw [hx], hflat, hmarkup ▸ hwritten⟩, _, rfl, ?_⟩
  exact (hflatten .article [.content] _ rfl).trans hmarkup

end ComponentTree
