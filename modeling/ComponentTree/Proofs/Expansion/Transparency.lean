import ComponentTree.Proofs.Expansion.Delegation

/-!
Expansions with a rule that has the others run ahead.

With such a rule, a record that is put in its own place waits again, at the end of the queue, and
when it comes up again nothing is done with it, since it is settled. Only then are the nodes inside
it queued. So the queue differs from the one without the rule, but it can be foreseen all the same
what will become of a queued node (`foretold`): it is unfolded, or only its content is if it waits
again. There are three kinds of turns, for a node that comes up for the first time and is kept or
passed over (`UnderWay.keep`), for a record that is put back (`UnderWay.putBack`), and for one that
comes up again (`UnderWay.passOver`); each fulfils what was foreseen and leaves fewer turns. Main
statement: if rules only decorate and do not depend on the position, an expansion ends with the same
tree and the same markup with the added rule and without it (`expand_withDelegate`).
-/

namespace ComponentTree

variable {σ : Type}

/-! ### Sites that wait for the first time or again -/

/-- The nodes that are inside a record when its content is flattened. -/
def Node.insideRecord : Node → List Node
  | .record r => r.content.flattenContent.inside
  | _ => []

/-- The nodes at a queued site that no rule has seen: the node that is there, or what is inside it
if the site waits again. -/
def Site.unseen (site : Site) (node : Node) : List Node :=
  if site.rounds = 0 then [node] else node.insideRecord

namespace Pass

/-- The nodes of the queue that no rule has seen. -/
def unseen (pass : Pass) : List Node := pass.queue.flatMap fun s => s.unseen (pass.nodeAt s)

/-- The most turns that are left: every node may come up twice, and some sites wait again. -/
def turnsLeft (pass : Pass) : Nat :=
  2 * Node.turnsAll pass.unseen + pass.queue.countP fun s => s.rounds ≠ 0

end Pass

namespace Engine

variable {e : Engine σ} {f : Dressing} {run : Pass → Run σ Pass} {pass : Pass} {site : Site}
  {queue : List Site} {node : Node} {deed : Deed} {w w' : World σ}

/-- What becomes of the node at a queued site: it is unfolded, or its content is if the site waits
again. -/
def foretold (e : Engine σ) (f : Dressing) (site : Site) (node : Node) : Node :=
  if site.rounds = 0 then e.unfold f site.owner site.position node
  else match node with
    | .record r =>
      .record { r with content := r.content.flattenContent.mapInside (e.unfold f site.owner) }
    | node => node

theorem foldl_foretold {sites : List Site} (h : ∀ s ∈ sites, s.rounds = 0) (t : Node) :
    sites.foldl (Site.alter (e.foretold f)) t = sites.foldl (e.unfoldAt f) t := by
  refine List.foldl_ext _ _ _ fun t s hs => ?_
  have hs : e.foretold f s = e.unfold f s.owner s.position := funext fun _ => if_pos (h s hs)
  rw [Site.alter, hs, unfoldAt]

theorem Plain.replaces (h : e.Plain f site node deed) : deed.replaces = false := by
  cases h <;> rfl

/-- The unseen nodes after a turn are the ones behind the front and the ones at the sites that are
queued. -/
theorem unseen_after (hs : pass.Sound) (hq : pass.queue = site :: queue) (deed : Deed) :
    (Pass.after { pass with queue } site deed).unseen =
      queue.flatMap (fun s => s.unseen (pass.nodeAt s)) ++
        (deed.sites pass.rootOnly site).flatMap fun s =>
          s.unseen ((Pass.after { pass with queue } site deed).nodeAt s) := by
  unfold Pass.unseen
  rw [Pass.after_queue, List.flatMap_append]
  refine congrArg (· ++ _) (List.flatMap_congr fun s hs' => ?_)
  unfold Pass.nodeAt
  rw [(hs.spares hq deed s hs').2]

/-- No rule has seen what a deed queues, unless it replaces its record. -/
theorem Does.unseen_sites (h : e.Does run pass site w deed w')
    (hp : (pass.tree.at? site.path).isSome) (hr : deed.replaces = false) :
    (deed.sites pass.rootOnly site).flatMap (fun s => s.unseen ((pass.after site deed).nodeAt s)) =
      deed.queued pass.rootOnly := by
  rw [← h.sites_map_nodeAt hp, List.map_eq_flatMap]
  refine List.flatMap_congr fun s hs => ?_
  rw [Site.unseen, if_pos (Deed.sites_rounds hr hs)]

/-- A pass with the added rule under way: no rule has run on what is unseen, and what waits again is
settled. -/
structure UnderWay (e : Engine σ) (ss : List Selector) (replaces : Bool) (pass : Pass)
    (w : World σ) : Prop where
  sound : pass.Sound
  whole : pass.rootOnly = false
  fresh : Fresh pass.unseen w
  settled : ∀ s ∈ pass.queue, s.rounds ≠ 0 → ∃ left, pass.tree.at? s.path = some (.record left) ∧
    e.resolveOwner left s.owner = (left, s.owner) ∧
      (e.withDelegate ss replaces).Settled left w

variable {ss : List Selector} {replaces : Bool} {fuel : Nat}

/-- A turn that fulfils what was foreseen keeps a pass under way and leaves fewer turns, if what it
queues instead of its site does: what is unseen there is fresh, and what waits again is settled. -/
theorem UnderWay.turn (h : e.UnderWay ss replaces pass w) (hq : pass.queue = site :: queue)
    (hn : pass.tree.at? site.path = some node)
    (hd : (e.withDelegate ss replaces).Does ((e.withDelegate ss replaces).runPass fuel)
      { pass with queue } site w deed w') {g : Site → Node → Node}
    (hfulfils : deed.Fulfils g { pass with queue } site node) {new : List Node}
    (hnew : (deed.sites pass.rootOnly site).flatMap (fun s =>
      s.unseen ((Pass.after { pass with queue } site deed).nodeAt s)) = new)
    (hfresh : ∀ nodes, Fresh (site.unseen node ++ nodes) w → Fresh (nodes ++ new) w')
    (hless : 2 * Node.turnsAll new +
        (deed.sites pass.rootOnly site).countP (fun s => s.rounds ≠ 0) <
      2 * Node.turnsAll (site.unseen node) + if site.rounds ≠ 0 then 1 else 0)
    (hsettled : ∀ s ∈ deed.sites pass.rootOnly site, s.rounds ≠ 0 → ∃ left,
      (Pass.after { pass with queue } site deed).tree.at? s.path = some (.record left) ∧
        e.resolveOwner left s.owner = (left, s.owner) ∧
          (e.withDelegate ss replaces).Settled left w') :
    AsForeseen g (e.UnderWay ss replaces) Pass.turnsLeft pass site queue node deed w' := by
  have hbefore : pass.unseen =
      site.unseen node ++ queue.flatMap fun s => s.unseen (pass.nodeAt s) := by
    rw [Pass.unseen, hq, List.flatMap_cons, Pass.nodeAt, hn]
    rfl
  have hafter := unseen_after h.sound hq deed
  rw [hnew] at hafter
  have hf := h.fresh
  rw [hbefore] at hf
  refine ⟨hfulfils,
    ⟨h.sound.turn hq hd, (Pass.after_rootOnly ..).trans h.whole, ?_, fun s hs hr => ?_⟩, ?_⟩
  · rw [hafter]
    exact hfresh _ hf
  · rw [Pass.after_queue, List.mem_append] at hs
    rcases hs with hs | hs
    · obtain ⟨left, hleft, howner, hset⟩ :=
        h.settled s (by rw [hq]; exact List.mem_cons_of_mem _ hs) hr
      rw [(h.sound.spares hq deed s hs).2]
      exact ⟨left, hleft, howner, hset.mono (.refl left) hd.moves⟩
    · exact hsettled s hs hr
  · unfold Pass.turnsLeft
    rw [hafter, hbefore, Pass.after_queue, hq, Node.turnsAll_append, Node.turnsAll_append,
      List.countP_append, List.countP_cons]
    simp only [decide_eq_true_eq] at hless ⊢
    omega

theorem countP_rounds {sites : List Site} (h : ∀ s ∈ sites, s.rounds = 0) :
    sites.countP (fun s => s.rounds ≠ 0) = 0 :=
  List.countP_eq_zero.mpr fun s hs => by simp [h s hs]

/-- A node comes up for the first time, and is handled as if rules only decorate. -/
theorem UnderWay.keep (h : e.UnderWay ss replaces pass w) (hq : pass.queue = site :: queue)
    (hn : pass.tree.at? site.path = some node) (hrounds : site.rounds = 0)
    (hd : (e.withDelegate ss replaces).Does ((e.withDelegate ss replaces).runPass fuel)
      { pass with queue } site w deed w') (hplain : e.Plain f site node deed)
    (hm : ∀ x ∈ w'.ledger.marks, x ∈ w.ledger.marks ∨ ∃ r, node = .record r ∧ x.1 = r.key) :
    AsForeseen (e.foretold f) (e.UnderWay ss replaces) Pass.turnsLeft pass site queue node deed
      w' := by
  have hforetold : e.foretold f site node = e.unfold f site.owner site.position node :=
    if_pos hrounds
  have hunseen : site.unseen node = [node] := if_pos hrounds
  have hfirst : ∀ s ∈ deed.sites pass.rootOnly site, s.rounds = 0 :=
    fun s => Deed.sites_rounds hplain.replaces
  have hnew := (hd.unseen_sites (h.sound.present_front hq) hplain.replaces).trans
    (congrArg (deed.queued ·) h.whole)
  refine h.turn hq hn hd ?_ hnew (fun nodes hf => ?_) ?_ fun s hs hr => absurd (hfirst s hs) hr
  · have hwhole : ({ pass with queue } : Pass).rootOnly = false := h.whole
    obtain ⟨n, hsites, hveiled⟩ := hplain.fulfils hwhole hn
    exact ⟨n, (foldl_foretold hfirst _).trans hsites, hforetold ▸ hveiled⟩
  · rw [hunseen] at hf
    exact hplain.fresh hf hm
  · have hlt := hplain.turns_lt
    rw [countP_rounds hfirst, hunseen, Node.turnsAll, Node.turnsAll]
    omega

/-- A record comes up for the first time, and is put in its own place again, dressed and settled. -/
theorem UnderWay.putBack (h : e.UnderWay ss replaces pass w) (hq : pass.queue = site :: queue)
    (hrounds : site.rounds = 0) {found left : Record} {owner : Owner}
    (hn : pass.tree.at? site.path = some (.record found))
    (hd : (e.withDelegate ss replaces).Does ((e.withDelegate ss replaces).runPass fuel)
      { pass with queue } site w (.replaced found left (.record left) owner) w')
    (hplain : e.Plain f site (.record found) (.kept found left owner))
    (hr : e.resolveOwner left owner = (left, owner))
    (hs : (e.withDelegate ss replaces).Settled left w')
    (hm : ∀ x ∈ w'.ledger.marks,
      x ∈ w.ledger.marks ∨ ∃ r, Node.record found = .record r ∧ x.1 = r.key) :
    AsForeseen (e.foretold f) (e.UnderWay ss replaces) Pass.turnsLeft pass site queue
      (.record found) (.replaced found left (.record left) owner) w' := by
  have hunseen : site.unseen (.record found) = [.record found] := if_pos hrounds
  let back : Site := { site.count with owner }
  have hback : back.rounds ≠ 0 := by
    change min (site.rounds + 1) Site.maxRounds ≠ 0
    rw [hrounds]
    decide
  have hleft : (Node.put (.record left) site.path pass.tree).at? site.path =
      some (.record left) := Node.at?_put_self _ (h.sound.present_front hq)
  have hnew : [back].flatMap (fun s => s.unseen ((Pass.after { pass with queue } site
      (.replaced found left (.record left) owner)).nodeAt s)) =
        (Deed.kept found left owner).queued false := by
    have hnode : (Pass.after { pass with queue } site
        (.replaced found left (.record left) owner)).nodeAt back = .record left :=
      congrArg (fun n : Option Node => n.getD .absent) hleft
    rw [List.flatMap_singleton, hnode]
    exact if_neg hback
  refine h.turn hq hn hd ⟨e.foretold f back (.record left), ?_, ?_⟩
    hnew (fun nodes hf => ?_) ?_ fun s hmem _ => ?_
  · have halter := Node.alter_append_put (e.foretold f back) (.record left) pass.tree site.path []
    rw [List.append_nil, Node.alter_nil] at halter
    exact halter
  · rw [foretold, foretold, if_neg hback, if_pos hrounds]
    exact hplain.veiled_eq
  · rw [hunseen] at hf
    exact hplain.fresh hf hm
  · have hcount : [back].countP (fun s => s.rounds ≠ 0) = 1 := by simp [hback]
    have hlt := hplain.turns_lt
    change 2 * _ + [back].countP _ < _
    rw [hcount, hunseen, Node.turnsAll, Node.turnsAll]
    omega
  · rw [List.mem_singleton.mp hmem]
    exact ⟨left, hleft, hr, hs⟩

/-- A record comes up again, and stays as it is. -/
theorem UnderWay.passOver (h : e.UnderWay ss replaces pass w) (hq : pass.queue = site :: queue)
    (hrounds : site.rounds ≠ 0) {left : Record}
    (hn : pass.tree.at? site.path = some (.record left))
    (hd : (e.withDelegate ss replaces).Does ((e.withDelegate ss replaces).runPass fuel)
      { pass with queue } site w (.kept left left site.owner) w')
    (hm : w'.ledger.marks = w.ledger.marks) :
    AsForeseen (e.foretold f) (e.UnderWay ss replaces) Pass.turnsLeft pass site queue
      (.record left) (.kept left left site.owner) w' := by
  have hunseen : site.unseen (.record left) = left.content.flattenContent.inside :=
    if_neg hrounds
  have hfirst : ∀ s ∈ (Deed.kept left left site.owner).sites pass.rootOnly site, s.rounds = 0 :=
    fun s => Deed.sites_rounds rfl
  have hnew := (hd.unseen_sites (h.sound.present_front hq) rfl).trans
    (congrArg ((Deed.kept left left site.owner).queued ·) h.whole)
  refine h.turn hq hn hd ⟨e.foretold f site (.record left), ?_, rfl⟩
    hnew (fun nodes hf => ?_) ?_ fun s hs hr => absurd (hfirst s hs) hr
  · rw [foldl_foretold hfirst, Pass.after_kept_tree, Record.settledIn, h.whole, Deed.sites,
      foretold, if_neg hrounds]
    exact foldl_unfoldAt_ofContent e f site.path site.owner left _ pass.tree
  · rw [hunseen] at hf
    obtain ⟨hnodup, hunmarked⟩ := hf.append_comm
    exact ⟨hnodup, hm ▸ hunmarked⟩
  · rw [countP_rounds hfirst, hunseen, if_pos hrounds, Deed.queued_kept]
    omega

/-- With the added rule it is foreseen that waiting nodes are unfolded. -/
theorem Decorates.foresees_withDelegate (hb : e.rulebook.Built)
    (hg : e.options.divergenceGuard = false) (hf : e.Decorates f) (hp : f.IgnoresPosition)
    (hss : ∀ s ∈ ss, e.rulebook.stored s ≠ []) (replaces : Bool) :
    (e.withDelegate ss replaces).Foresees (e.foretold f) (e.UnderWay ss replaces)
      Pass.turnsLeft := by
  refine ⟨UnderWay.sound, ?_⟩
  intro fuel pass w site queue node h hq hn hfuel
  have hfront : site ∈ pass.queue := hq ▸ List.mem_cons_self ..
  have hn' : ({ pass with queue } : Pass).tree.at? site.path = some node := hn
  by_cases hrounds : site.rounds = 0
  · have hunseen : node ∈ pass.unseen := by
      refine List.mem_flatMap.mpr ⟨site, hfront, ?_⟩
      rw [Site.unseen, if_pos hrounds, Pass.nodeAt, hn]
      exact List.mem_singleton_self _
    -- the pass that runs the record ahead takes two steps
    obtain ⟨steps, rfl⟩ : ∃ steps, fuel = steps + 2 := by
      have hone : 1 ≤ node.turns := Nat.le_max_left ..
      have hall := Node.turns_le_turnsAll hunseen
      unfold Pass.turnsLeft at hfuel
      exact ⟨fuel - 2, by omega⟩
    obtain ⟨deed, w', hd, hhandles, hmarks⟩ := hf.does_withDelegate hb hss hg hp replaces steps hn'
      fun r hr => h.fresh.not_marked (hr ▸ hunseen)
    refine ⟨deed, w', hd, ?_⟩
    cases hhandles with
    | plain hplain => exact h.keep hq hn hrounds hd hplain hmarks
    | again hplain hr hs => exact h.putBack hq hrounds hn hd hplain hr hs hmarks
  · obtain ⟨left, hleft, howner, hset⟩ := h.settled site hfront hrounds
    obtain rfl := Option.some.inj (hn.symm.trans hleft)
    obtain ⟨w', hd, hmarks⟩ := hset.does hn' howner (withDelegate_refuses hg ss replaces _)
    exact ⟨_, w', hd, h.passOver hq hrounds hn hd hmarks⟩

/-- A rule that only has the other rules of its record run ahead, and then puts what has become of
the record in its place or answers with nothing, changes no result: if it is registered for
selectors that have rules, all rules only decorate and do not depend on the position, and the guard
is off, then a tree with different identities is expanded to the same tree with the rule and without
it, but for identities, since rules may put new records into mixins; and the markup is the same. -/
theorem expand_withDelegate (hb : e.rulebook.Built) (hg : e.options.divergenceGuard = false)
    (hf : e.Decorates f) (hp : f.IgnoresPosition) (hss : ∀ s ∈ ss, e.rulebook.stored s ≠ [])
    (replaces : Bool) (nextKey : Key) (memory : σ) {root : Node} (hk : root.keys.Nodup) :
    ∃ x tree x' tree', e.EndsWith nextKey memory root x ∧ x.answer = .ok tree ∧
      (e.withDelegate ss replaces).EndsWith nextKey memory root x' ∧ x'.answer = .ok tree' ∧
        tree'.anonymous = tree.anonymous ∧ x'.markup = x.markup := by
  have hreached := hk.sublist root.reachedKeys_sublist
  obtain ⟨x, tree, hx, hanswer, htree⟩ := expand_unfolds hb hg hf nextKey memory hreached
  have hunseen : (Pass.start 0 {} false root).unseen = [root] := by
    rw [Pass.unseen, Pass.start, List.flatMap_singleton, Pass.nodeAt, Node.at?_nil]
    rfl
  have hstart : e.UnderWay ss replaces (.start 0 {} false root)
      { nextKey, nextId := e.nextId, memory, ledger := { passes := 1 } } := by
    refine ⟨Pass.start_sound 0 {} false root, rfl, ?_, fun s hs hr => ?_⟩
    · rw [hunseen]
      exact .singleton hreached rfl
    · rw [List.mem_singleton.mp hs] at hr
      exact absurd rfl hr
  obtain ⟨x', tree', hx', hanswer', htree'⟩ :=
    (hf.foresees_withDelegate hb hg hp hss replaces).expand hstart
  have hanonymous := Node.anonymous_of_veiled (htree'.trans htree.symm)
  refine ⟨x, tree, x', tree', hx, hanswer, hx', hanswer', hanonymous, ?_⟩
  rw [Expansion.markup, Expansion.markup, hanswer, hanswer']
  exact congrArg Except.ok (Markup.render_of_anonymous hanonymous)

end Engine

/-- A rule that makes a section of a record with something inside, and stops an empty one. -/
def RuleM.sectioning : RuleM Unit (Option Node) :=
  .look fun c =>
    .write (if c.record.content.isInner then .tag "section" else .stop) (.done none)

/-- An engine with two rules for boxes: the older one adds a mixin, and the newer one makes sections
of boxes. -/
def Engine.sectioning : Engine Unit where
  rulebook := ((({} : Rulebook Unit).register [⟨"box", .any, none⟩] .mixing).1.register
    [⟨"box", .any, none⟩] .sectioning).1

/-- The rules as functions. -/
def Dressing.sectioning : Dressing
  | 0, _, r => (r.rendering, r.mixins ++ [.record { Record.blank with component := some "focus" }])
  | _, _, r =>
    (r.rendering.write (if r.content.isInner then .tag "section" else .stop), r.mixins)

theorem Engine.sectioning_decorates : sectioning.Decorates .sectioning := by
  intro rule body hb run position r w
  match rule with
  | 0 =>
    obtain rfl : RuleM.mixing = body := Option.some.inj hb
    refine ⟨_, _, rfl, Record.masked_eq_dress rfl rfl ?_⟩
    change (r.mixins ++ _).map Node.anonymous =
      (r.mixins.map Node.anonymous ++ _).map Node.anonymous
    rw [List.map_append, List.map_append, Node.map_anonymous_anonymous]
    rfl
  | 1 =>
    obtain rfl : RuleM.sectioning = body := Option.some.inj hb
    obtain ⟨key, component, part, variant, params, content, mixins, rendering⟩ := r
    have hmixins := (Node.map_anonymous_anonymous mixins).symm
    cases content <;> exact ⟨_, _, rfl, Record.masked_eq_dress rfl rfl hmixins⟩
  | _ + 2 => cases hb

theorem Dressing.sectioning_ignoresPosition : Dressing.sectioning.IgnoresPosition := by
  intro rule position position' r
  cases rule <;> rfl

/-- With a rule that puts boxes in their own place again, the boxes of a shelf come out the same. -/
theorem Engine.expand_withDelegate_shelf : sectioning.rulebook.Built ∧
    sectioning.options.divergenceGuard = false ∧ sectioning.Decorates .sectioning ∧
    Dressing.sectioning.IgnoresPosition ∧
    (∀ s ∈ [(⟨"box", .any, none⟩ : Selector)], sectioning.rulebook.stored s ≠ []) ∧
    Node.shelf.keys.Nodup ∧
    ∃ x tree x' tree', sectioning.EndsWith 6 () .shelf x ∧ x.answer = .ok tree ∧
      (sectioning.withDelegate [⟨"box", .any, none⟩] true).EndsWith 6 () .shelf x' ∧
        x'.answer = .ok tree' ∧ tree'.anonymous = tree.anonymous ∧ x'.markup = x.markup := by
  have hb : sectioning.rulebook.Built := .register (.register .empty _ _) _ _
  have hss : ∀ s ∈ [(⟨"box", .any, none⟩ : Selector)], sectioning.rulebook.stored s ≠ [] := by
    decide
  have hk : Node.shelf.keys.Nodup := by decide
  exact ⟨hb, rfl, sectioning_decorates, Dressing.sectioning_ignoresPosition, hss, hk,
    expand_withDelegate hb rfl sectioning_decorates Dressing.sectioning_ignoresPosition hss true 6
      () hk⟩

end ComponentTree
