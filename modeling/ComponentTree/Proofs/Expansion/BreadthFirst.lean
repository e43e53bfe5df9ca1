import ComponentTree.Proofs.Expansion.Foresight
import ComponentTree.Proofs.Expansion.Recursion

/-!
The queue as plain recursion.

If rules only decorate, it can be foreseen what will become of a queued node: it is unfolded by
recursion. So at every turn of a pass there is a tree that it will end with, in which everything
from the queued sites on is unfolded; a turn fulfils what was foreseen for its site
(`Plain.fulfils`). A record is looked at once only, since the records that wait have different
identities (`Plain.fresh`), and every turn leaves less to be looked at (`Plain.turns_lt`). Main
statement: an expansion by such rules ends with the tree that the recursion gives
(`expand_eq_unfold`).
-/

namespace ComponentTree

variable {σ : Type}

/-! ### The tree that a queue leads to -/

namespace Engine

variable {e : Engine σ} {f : Dressing}

/-- The tree in which everything from a site on is unfolded. -/
def unfoldAt (e : Engine σ) (f : Dressing) (tree : Node) (site : Site) : Node :=
  Node.alter (e.unfold f site.owner site.position) site.path tree

/-- Items that wait in a list are unfolded where they are. Those in front of them are unfolded
already, and `total` is the length of the whole list. -/
theorem foldl_unfoldAt_items (e : Engine σ) (f : Dressing) (base : Path) (owner : Owner) (t : Node)
    (total : Nat) : ∀ done rest : List Node,
      ((rest.zipIdx done.length).filterMap fun (node, i) =>
          if node.isInner then some (⟨base ++ [.item i], .listed i total, owner, 0⟩ : Site)
          else none).foldl (e.unfoldAt f) (Node.put (.list (done ++ rest)) base t) =
        Node.put (.list (done ++ (rest.zipIdx done.length).map fun x =>
          e.unfold f owner (.listed x.2 total) x.1)) base t
  | done, [] => rfl
  | done, item :: rest => by
    -- the unfolded item joins the ones that are done
    have hnext := foldl_unfoldAt_items e f base owner t total
      (done ++ [e.unfold f owner (.listed done.length total) item]) rest
    rw [List.length_append, List.length_singleton, List.append_assoc, List.append_assoc,
      List.singleton_append, List.singleton_append] at hnext
    rw [List.zipIdx_cons, List.map_cons, ← hnext]
    cases hi : item.isInner with
    | true =>
      have hat : (done ++ item :: rest).modify done.length
          (Node.alter (e.unfold f owner (.listed done.length total)) []) =
          done ++ e.unfold f owner (.listed done.length total) item :: rest := by
        refine (List.modifyTailIdx_add (List.modifyHead _) 0 done (item :: rest)).trans ?_
        exact congrArg (done ++ · :: rest) (Node.alter_nil ..)
      rw [List.filterMap_cons_some (by simp [hi]; rfl), List.foldl_cons]
      unfold unfoldAt
      rw [Node.alter_append_put, Node.alter_item_list, hat]
    | false =>
      rw [List.filterMap_cons_none (by simp [hi]), unfold_of_not_isInner hi]

theorem foldl_unfoldAt_ofItems (e : Engine σ) (f : Dressing) (base : Path) (owner : Owner)
    (items : List Node) (t : Node) :
    (Site.ofItems base owner items).foldl (e.unfoldAt f) (Node.put (.list items) base t) =
      Node.put ((Node.list items).mapInside (e.unfold f owner)) base t :=
  foldl_unfoldAt_items e f base owner t items.length [] items

/-- What waits in the content of a record is unfolded where it is. -/
theorem foldl_unfoldAt_ofContent (e : Engine σ) (f : Dressing) (base : Path) (owner : Owner)
    (r : Record) (content t : Node) :
    (Site.ofContent base owner content).foldl (e.unfoldAt f)
        (Node.put (.record { r with content }) base t) =
      Node.put (.record { r with content := content.mapInside (e.unfold f owner) }) base t := by
  cases content with
  | list items =>
    have hput : ∀ content,
        Node.put content [.content] (.record { r with content := .list items }) =
          .record { r with content } := by
      intro content
      rw [Node.put, Node.put_nil]
    have hitems := foldl_unfoldAt_ofItems e f (base ++ [.content]) owner items
      (Node.put (.record { r with content := .list items }) base t)
    rw [Node.put_append_put, Node.put_append_put, hput, hput] at hitems
    exact hitems
  | record inner =>
    rw [Site.ofContent_of_isInner rfl rfl, List.foldl_cons, List.foldl_nil, unfoldAt,
      Node.alter_append_put, Node.alter_content_record, Node.alter_nil]
    rfl
  | _ =>
    exact congrArg (fun content => Node.put (.record { r with content }) base t)
      (unfold_of_not_isInner rfl owner .alone).symm

/-- A record as its rules left it, with its content unfolded, is the unfolded record but for
identities in mixins. -/
theorem Plain.veiled_eq {site : Site} {found left : Record} {owner : Owner}
    (h : e.Plain f site (.record found) (.kept found left owner)) :
    (Node.record { left with
        content := left.content.flattenContent.mapInside (e.unfold f owner) }).veiled =
      (e.unfold f site.owner site.position (.record found)).veiled := by
  have hcontent := h.content
  obtain _ | ⟨hr, hleft⟩ | _ := h
  rw [unfold_record hr, hcontent]
  exact Record.veiled_eq (congrArg (fun r : Record => { r with
    content := found.content.flattenContent.mapInside (e.unfold f owner) }) hleft)

/-- What rules that only decorate do with a node fulfils that it is unfolded. -/
theorem Plain.fulfils {site : Site} {node : Node} {deed : Deed} (h : e.Plain f site node deed)
    {pass : Pass} (hro : pass.rootOnly = false) (hn : pass.tree.at? site.path = some node) :
    deed.Fulfils (fun s => e.unfold f s.owner s.position) pass site node := by
  cases h with
  | opened items =>
    have hitems := foldl_unfoldAt_ofItems e f site.path site.owner items pass.tree
    rw [Node.put_at? hn, ← unfold_list site.owner site.position] at hitems
    exact ⟨_, hitems, rfl⟩
  | @kept found r left owner hr hleft =>
    unfold Deed.Fulfils
    rw [Pass.after_kept_tree, Record.settledIn, hro, Deed.sites]
    exact ⟨_, foldl_unfoldAt_ofContent e f site.path owner left _ pass.tree,
      (Plain.kept hr hleft).veiled_eq⟩
  | passed h =>
    exact ⟨node, (Node.put_at? hn).symm, congrArg Node.veiled (unfold_of_not_isInner h ..).symm⟩

end Engine

/-! ### The nodes that wait -/

/-- The nodes that wait to be looked at. -/
def Pass.pending (pass : Pass) : List Node := pass.queue.map pass.nodeAt

theorem Pass.pending_cons {pass : Pass} {site : Site} {queue : List Site} {node : Node}
    (hq : pass.queue = site :: queue) (hn : pass.tree.at? site.path = some node) :
    pass.pending = node :: queue.map pass.nodeAt := by
  rw [pending, hq, List.map_cons, nodeAt, hn]
  rfl

namespace Engine

variable {e : Engine σ} {f : Dressing} {run : Pass → Run σ Pass} {pass : Pass} {site : Site}
  {queue : List Site} {deed : Deed} {w w' : World σ}

/-- A turn takes the node at the front away and puts the ones that its deed queues at the end. -/
theorem Does.pending_after (hs : pass.Sound) (hq : pass.queue = site :: queue)
    (h : e.Does run { pass with queue } site w deed w') :
    (Pass.after { pass with queue } site deed).pending =
      queue.map pass.nodeAt ++ deed.queued pass.rootOnly := by
  unfold Pass.pending
  rw [Pass.after_queue, List.map_append, h.sites_map_nodeAt (hs.present_front hq)]
  refine congrArg (· ++ deed.queued pass.rootOnly) (List.map_congr_left fun s hs' => ?_)
  unfold Pass.nodeAt
  rw [(hs.spares hq deed s hs').2]

/-- The nodes that wait take fewer turns after a turn, if what its deed queues takes fewer turns
than the node that was looked at. -/
theorem Does.turnsAll_pending_lt (hs : pass.Sound) (hq : pass.queue = site :: queue)
    (h : e.Does run { pass with queue } site w deed w') {node : Node}
    (hn : pass.tree.at? site.path = some node)
    (hlt : Node.turnsAll (deed.queued pass.rootOnly) < node.turns) :
    Node.turnsAll (Pass.after { pass with queue } site deed).pending <
      Node.turnsAll pass.pending := by
  rw [h.pending_after hs hq, Pass.pending_cons hq hn, Node.turnsAll_append, Node.turnsAll]
  omega

/-! ### Passes of plain recursion -/

/-- The records in reach of nodes have different identities, and no rule has run on them. -/
structure Fresh (nodes : List Node) (w : World σ) : Prop where
  nodup : (Node.reachedKeysAll nodes).Nodup
  unmarked : ∀ x ∈ w.ledger.marks, x.1 ∉ Node.reachedKeysAll nodes

theorem Fresh.not_marked {nodes : List Node} {r : Record} (hf : Fresh nodes w)
    (hr : .record r ∈ nodes) (rule : RuleId) : (r.key, rule) ∉ w.ledger.marks := by
  refine fun hm => hf.unmarked _ hm (Node.mem_reachedKeysAll ?_ hr)
  rw [Node.reachedKeys_record]
  exact List.mem_cons_self ..

theorem Fresh.singleton {node : Node} (hk : node.reachedKeys.Nodup) (hw : w.ledger.marks = []) :
    Fresh [node] w := by
  have hkeys : Node.reachedKeysAll [node] = node.reachedKeys := List.append_nil _
  exact ⟨hkeys ▸ hk, fun x hx => by rw [hw] at hx; cases hx⟩

/-- The order of the nodes does not count. -/
theorem Fresh.append_comm {nodes nodes' : List Node} (hf : Fresh (nodes ++ nodes') w) :
    Fresh (nodes' ++ nodes) w := by
  obtain ⟨hnodup, hunmarked⟩ := hf
  rw [Node.reachedKeysAll_append] at hnodup
  refine ⟨?_, fun x hx => ?_⟩ <;> rw [Node.reachedKeysAll_append]
  · exact List.nodup_append_comm.mp hnodup
  · have hx := hunmarked x hx
    rwa [Node.reachedKeysAll_append, List.mem_append, Or.comm, ← List.mem_append] at hx

/-- What is queued for a node holds the other records in reach of it. -/
theorem Plain.reachedKeys {node : Node} (h : e.Plain f site node deed) :
    node.reachedKeys =
      (node.record?.map (·.key)).toList ++ Node.reachedKeysAll (deed.queued false) := by
  cases h with
  | opened items => exact (Node.reachedKeysAll_inside _).symm
  | kept hr hleft =>
    rw [Node.reachedKeys_record, Deed.queued_kept, (Plain.kept hr hleft).content,
      Node.reachedKeysAll_inside, Node.reachedKeys_flattenContent]
    rfl
  | passed h => cases node <;> first | rfl | cases h

/-- What is queued for a node takes fewer turns than the node. -/
theorem Plain.turns_lt {node : Node} (h : e.Plain f site node deed) :
    Node.turnsAll (deed.queued false) < node.turns := by
  cases h with
  | opened items => exact Node.turnsAll_inside_lt items
  | @kept found _ _ _ hr hleft =>
    rw [Deed.queued_kept, (Plain.kept hr hleft).content]
    exact Node.turnsAll_content_lt found
  | passed => exact Nat.le_max_left _ _

/-- When a node has been looked at, what is queued for it is fresh. -/
theorem Plain.fresh {node : Node} {nodes : List Node} (h : e.Plain f site node deed)
    (hf : Fresh (node :: nodes) w)
    (hm : ∀ x ∈ w'.ledger.marks, x ∈ w.ledger.marks ∨ ∃ r, node = .record r ∧ x.1 = r.key) :
    Fresh (nodes ++ deed.queued false) w' := by
  have hkeys : Node.reachedKeysAll (node :: nodes) = (node.record?.map (·.key)).toList ++
      Node.reachedKeysAll (deed.queued false ++ nodes) := by
    rw [Node.reachedKeysAll, h.reachedKeys, Node.reachedKeysAll_append, List.append_assoc]
  have hnodup := hf.nodup
  rw [hkeys, List.nodup_append'] at hnodup
  refine Fresh.append_comm ⟨hnodup.2.1, fun x hx => ?_⟩
  rcases hm x hx with hx | ⟨r, rfl, hx⟩
  · exact fun hk => hf.unmarked x hx (hkeys ▸ List.mem_append_right _ hk)
  · exact fun hk => hnodup.2.2 (by rw [hx]; exact List.mem_singleton_self _) hk

/-- If rules only decorate, it is foreseen that waiting nodes are unfolded. -/
theorem Decorates.foresees (hb : e.rulebook.Built) (hg : e.options.divergenceGuard = false)
    (hf : e.Decorates f) : e.Foresees (fun s => e.unfold f s.owner s.position)
      (fun pass w => pass.Sound ∧ pass.rootOnly = false ∧ Fresh pass.pending w)
      fun pass => Node.turnsAll pass.pending := by
  refine ⟨And.left, ?_⟩
  rintro fuel pass w site queue node ⟨hs, hro, hfresh⟩ hq hn -
  rw [Pass.pending_cons hq hn] at hfresh
  have hunmarked : ∀ r, node = .record r → ∀ rule, (r.key, rule) ∉ w.ledger.marks :=
    fun r hr => hfresh.not_marked (hr ▸ List.mem_cons_self ..)
  obtain ⟨deed, w', hd, hplain, hmarks⟩ :=
    hf.does hb hg (e.runPass_zero_goesOn fuel) { pass with queue } hn hunmarked
  refine ⟨deed, w', hd, hplain.fulfils hro hn,
    ⟨hs.turn hq hd, (Pass.after_rootOnly ..).trans hro, ?_⟩, ?_⟩
  · rw [hd.pending_after hs hq, hro]
    exact hplain.fresh hfresh hmarks
  · refine hd.turnsAll_pending_lt hs hq hn ?_
    rw [hro]
    exact hplain.turns_lt

/-- If rules only decorate the records that they run on, the guard is off, and the records in reach
have different identities, then expanding a tree ends with the tree that plain recursion gives, but
for identities in mixins. -/
theorem expand_unfolds (hb : e.rulebook.Built) (hg : e.options.divergenceGuard = false)
    (hf : e.Decorates f) (nextKey : Key) (memory : σ) {root : Node}
    (hk : root.reachedKeys.Nodup) :
    ∃ x tree, e.EndsWith nextKey memory root x ∧ x.answer = .ok tree ∧
      tree.veiled = (e.unfold f {} (.listed 0 1) root).veiled := by
  have hpending : (Pass.start 0 {} false root).pending = [root] := by
    rw [Pass.pending, Pass.start, List.map_singleton, Pass.nodeAt, Node.at?_nil]
    rfl
  refine (hf.foresees hb hg).expand ⟨Pass.start_sound 0 {} false root, rfl, ?_⟩
  rw [hpending]
  exact .singleton hk rfl

/-- If rules only decorate the records that they run on, the guard is off, and the records of a tree
have different identities, then expanding the tree ends with the tree that plain recursion gives,
but for identities, since rules may put new records into mixins. -/
theorem expand_eq_unfold (hb : e.rulebook.Built) (hg : e.options.divergenceGuard = false)
    (hf : e.Decorates f) (nextKey : Key) (memory : σ) {root : Node} (hk : root.keys.Nodup) :
    ∃ x tree, e.EndsWith nextKey memory root x ∧ x.answer = .ok tree ∧
      tree.anonymous = (e.unfold f {} (.listed 0 1) root).anonymous := by
  obtain ⟨x, tree, hx, hanswer, htree⟩ :=
    expand_unfolds hb hg hf nextKey memory (hk.sublist root.reachedKeys_sublist)
  exact ⟨x, tree, hx, hanswer, Node.anonymous_of_veiled htree⟩

end Engine

/-- A rule that adds a mixin, which is a new record each time. -/
def RuleM.mixing : RuleM Unit (Option Node) :=
  .issue (.record { Record.blank with component := some "focus" }) fun t =>
    .write (.mixin t) (.done none)

/-- A rule that numbers the items of a list, and stops a record that is the whole content. -/
def RuleM.numbering : RuleM Unit (Option Node) :=
  .look fun c => match c.position with
    | .listed index _ => .write (.attr "item" (.text (toString index))) (.done none)
    | .alone => .write .stop (.done none)

/-- An engine with these rules for boxes; the one that numbers is the newer one. -/
def Engine.numbering : Engine Unit where
  rulebook := ((({} : Rulebook Unit).register [⟨"box", .any, none⟩] .mixing).1.register
    [⟨"box", .any, none⟩] .numbering).1

/-- The rules as functions. -/
def Dressing.numbering : Dressing
  | 0, _, r => (r.rendering, r.mixins ++ [.record { Record.blank with component := some "focus" }])
  | _, .listed index _, r => (r.rendering.write (.attr "item" (.text (toString index))), r.mixins)
  | _, .alone, r => (r.rendering.write .stop, r.mixins)

theorem Engine.numbering_decorates : numbering.Decorates .numbering := by
  intro rule body hb run position r w
  match rule with
  | 0 =>
    obtain rfl : RuleM.mixing = body := Option.some.inj hb
    refine ⟨_, _, rfl, Record.masked_eq_dress rfl rfl ?_⟩
    change (r.mixins ++ _).map Node.anonymous =
      (r.mixins.map Node.anonymous ++ _).map Node.anonymous
    rw [List.map_append, List.map_append, Node.map_anonymous_anonymous]
    rfl
  | 1 =>
    obtain rfl : RuleM.numbering = body := Option.some.inj hb
    have hmixins := (Node.map_anonymous_anonymous r.mixins).symm
    cases position <;> exact ⟨_, _, rfl, Record.masked_eq_dress rfl rfl hmixins⟩
  | _ + 2 => cases hb

/-- Boxes in the content of a plain record, two of them in a list inside it, and one in another. -/
def Node.shelf : Node :=
  let box (key : Key) (content : Node) : Node :=
    .record { Record.blank with key, component := some "box", content }
  .record { Record.blank with
    key := 1
    content := .list [.list [box 2 .absent, box 3 .absent], .text "and", box 4 (box 5 .absent)] }

/-- The list inside is flattened, so the items are numbered from zero to three; the box in the last
one is stopped before it gets a mixin. -/
theorem Engine.numbering_eq_unfold : numbering.rulebook.Built ∧
    numbering.options.divergenceGuard = false ∧ numbering.Decorates .numbering ∧
    Node.shelf.keys.Nodup ∧
    ∃ x tree, numbering.EndsWith 6 () .shelf x ∧ x.answer = .ok tree ∧
      tree.anonymous = (numbering.unfold .numbering {} (.listed 0 1) .shelf).anonymous := by
  have hb : numbering.rulebook.Built := .register (.register .empty _ _) _ _
  have hk : Node.shelf.keys.Nodup := by decide
  exact ⟨hb, rfl, numbering_decorates, hk,
    expand_eq_unfold hb rfl numbering_decorates 6 () hk⟩

end ComponentTree
