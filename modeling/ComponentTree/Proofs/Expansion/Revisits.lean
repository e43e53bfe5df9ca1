import ComponentTree.Proofs.Expansion.LiteralData
import ComponentTree.Proofs.Expansion.Worklist

/-!
Records that come up again.

A record comes up again when a rule has it run ahead, and when a rule replaced it by a record that
has its component, part and variant. The first time, its component and its variant were written into
it. So although a pass that runs it ahead is handed its component only, and the site that is put
back hands down what the record itself handed down, the owner of the record is settled in the same
way each time (`resolveOwner_own`, `resolveOwner_again`). Main statement (`revisits_matched`):
whenever an unreplaced record comes up again, it is matched by the selector and the rules by which
it was matched first.
-/

namespace ComponentTree

variable {σ : Type}

/-! ### Sites that wait -/

/-- The site is queued, and the node is at its place. -/
structure Pass.Awaits (pass : Pass) (site : Site) (node : Node) : Prop where
  queued : site ∈ pass.queue
  present : pass.tree.at? site.path = some node

namespace Pass

variable {pass : Pass} {site front : Site} {queue : List Site} {node : Node}

/-- A site that waits at the place of the one at the front is that one. -/
theorem Awaits.eq_front (h : pass.Awaits site node) (hs : pass.Sound)
    (hq : pass.queue = front :: queue) (hp : front.path = site.path) : front = site := by
  have hmem := h.queued
  rw [hq] at hmem
  rcases List.mem_cons.mp hmem with rfl | hmem
  · rfl
  · exact absurd (hp ▸ List.prefix_rfl) (hs.apart_front hq hmem).1

/-- A turn elsewhere lets the site wait. -/
theorem Awaits.turn (h : pass.Awaits site node) (hs : pass.Sound)
    (hq : pass.queue = front :: queue) (hp : front.path ≠ site.path) (deed : Deed) :
    (after { pass with queue } front deed).Awaits site node := by
  have hmem := h.queued
  rw [hq] at hmem
  rcases List.mem_cons.mp hmem with rfl | hmem
  · exact absurd rfl hp
  · obtain ⟨hqueued, hat⟩ := hs.spares hq deed site hmem
    exact ⟨hqueued, hat.trans h.present⟩

/-- After a record was replaced, its site waits with the replacement at its place. -/
theorem awaits_replacement (hs : pass.Sound) (hq : pass.queue = site :: queue)
    (found left : Record) (replacement : Node) (owner : Owner) :
    (after { pass with queue } site (.replaced found left replacement owner)).Awaits
      { site.count with owner } replacement where
  queued := by
    rw [after_queue]
    exact List.mem_append_right _ (List.mem_singleton_self _)
  present := by
    have hsite := hs.present_front hq
    exact Node.at?_put_self replacement hsite

end Pass

/-- From when a record was replaced until its site comes up again, the site waits with the
replacement at its place, and hands down the owner that was settled for the record. -/
theorem Engine.Reaches.awaits_replacement {e : Engine σ} {limit number : Nat} {given owner : Owner}
    {rootOnly : Bool} {root : Node} {w₀ : World σ} {site : Site} {found left : Record}
    {replacement : Node} {earlier : List Turn} :
    ∀ {between : List Turn} {pass : Pass} {w : World σ},
      e.Reaches limit (.start number given rootOnly root) w₀
        (between ++ ⟨site, .replaced found left replacement owner⟩ :: earlier) pass w →
      (∀ t ∈ between, t.site.path ≠ site.path) →
        pass.Awaits { site.count with owner } replacement ∧
          (e.resolveOwner found site.owner).2 = owner
  | [], _, _, h, _ => by
    cases h with
    | turn h hq hf hd =>
      refine ⟨Pass.awaits_replacement h.sound hq found left replacement owner, ?_⟩
      cases hd with
      | replaced _ hr => rw [hr]
  | t :: between, _, _, h, hb => by
    obtain ⟨ht, hbetween⟩ := List.forall_mem_cons.mp hb
    cases h with
    | turn h hq hf hd =>
      obtain ⟨hawaits, howner⟩ := awaits_replacement h hbetween
      exact ⟨hawaits.turn h.sound hq ht _, howner⟩

/-! ### What a record is matched by -/

namespace Engine

/-- The selector and the rules that a record is matched by where it is found. -/
def matched (e : Engine σ) (found : Record) (inherited : Owner) :
    Option (Selector × List RuleId) :=
  let (r, owner) := e.resolveOwner found inherited
  r.component.bind fun component => e.rulebook.resolve component owner.variant r.part

variable {e : Engine σ} {found r : Record} {inherited owner : Owner} {component : String}

theorem matched_eq (hr : e.resolveOwner found inherited = (r, owner))
    (hc : r.component = some component) :
    e.matched found inherited = e.rulebook.resolve component owner.variant r.part := by
  rw [matched, hr]
  dsimp only
  rw [hc]
  rfl

/-- A record that got its owner keeps it, wherever that owner or its component is handed down. -/
theorem resolveOwner_revisited (hr : e.resolveOwner found inherited = (r, owner))
    (hc : r.component.isSome) {given : Owner}
    (hg : given ∈ [inherited, owner, ⟨r.component, none⟩]) :
    e.resolveOwner r given = (r, owner) := by
  have hresolved : e.Resolved r := by
    have hr' := e.resolveOwner_resolved found inherited
    rwa [hr] at hr'
  have howner := resolveOwner_owner hr hc
  simp only [List.mem_cons, List.not_mem_nil, or_false] at hg
  rcases hg with rfl | rfl | rfl
  · exact resolveOwner_again hr rfl rfl rfl
  · rw [howner]
    exact resolveOwner_own hresolved hc (Or.inr rfl)
  · rw [howner]
    exact resolveOwner_own hresolved hc (Or.inl rfl)

/-- A record with the component, part and variant of `r` is matched like `r` where the owner of `r`
is handed down, and its owner is settled in the same way. -/
theorem matched_again (hr : e.resolveOwner found inherited = (r, owner))
    (hc : r.component = some component) {again : Record}
    (hcomponent : again.component = r.component) (hpart : again.part = r.part)
    (hvariant : again.variant = r.variant) :
    e.resolveOwner again owner = (again, owner) ∧
      e.matched again owner = e.matched found inherited := by
  have hsome : r.component.isSome := by rw [hc]; rfl
  have hagain : e.resolveOwner again owner = (again, owner) := by
    have hmem : owner ∈ [inherited, owner, ⟨r.component, none⟩] := by simp
    exact resolveOwner_again (resolveOwner_revisited hr hsome hmem) hcomponent hpart hvariant
  refine ⟨hagain, ?_⟩
  rw [matched_eq hagain (hcomponent.trans hc), matched_eq hr hc, hpart]

/-- While the rules of a record run, every record that comes up in a pass is that one, with its own
component, variant and part, as long as no rule has replaced it. -/
theorem applyRules_visits (hr : e.resolveOwner found inherited = (r, owner))
    (hc : r.component = some component) {fuel number : Nat} {site : Site} {w : World σ}
    {later earlier : List Event} {pass : Nat} {path : Path} {key : Key} {component' : String}
    {variant part : Option String}
    (hj : (e.applyRules (e.runPass fuel) number site r component owner.variant w).2.ledger.journal =
      later ++ .visited pass path key component' variant part :: (earlier ++ w.ledger.journal))
    (hn : Unreplaced r.key earlier) :
    key = r.key ∧ component' = component ∧ variant = owner.variant ∧ part = r.part := by
  have hresolved : e.Resolved r := by
    have hr' := e.resolveOwner_resolved found inherited
    rwa [hr] at hr'
  obtain ⟨events, he, hholds, -⟩ :=
    e.attentive_preserves.applyRules fuel number site r component owner.variant w
  rw [hj, ← List.cons_append, ← List.append_assoc] at he
  obtain rfl := List.append_cancel_right he
  obtain ⟨hkey, hcomponent, hvariant, hpart⟩ := hholds.of_split hn hresolved
  refine ⟨hkey, Option.some.inj (hcomponent.symm.trans hc), ?_, hpart⟩
  rw [hvariant, resolveOwner_owner hr (by rw [hc]; rfl)]

/-- Whenever a record comes up again that was not replaced by another one, it is matched like the
first time. Let the owner of a record be settled where `inherited` is handed down, so that it has a
component. Then settling it again gives the same and changes nothing, whether `inherited`, that
owner or only the component is handed down. In all passes for the record alone that its rules ask
for, the rules are looked for under the same selector, as long as no rule has replaced the record.
And if a rule has replaced it by a record with its component, part and variant, then this record is
found when the site comes up again, gets the same owner and is matched by the same rules. -/
theorem revisits_matched (e : Engine σ) {found r : Record} {inherited owner : Owner}
    {component : String} (hr : e.resolveOwner found inherited = (r, owner))
    (hc : r.component = some component) :
    (∀ given ∈ [inherited, owner, ⟨r.component, none⟩],
      e.resolveOwner r given = (r, owner) ∧ e.matched r given = e.matched found inherited) ∧
    (∀ fuel number site (w : World σ) later pass path key component' variant part earlier,
      (e.applyRules (e.runPass fuel) number site r component owner.variant w).2.ledger.journal =
        later ++ .visited pass path key component' variant part :: (earlier ++ w.ledger.journal) →
      Unreplaced r.key earlier → key = r.key ∧
        e.rulebook.resolve component' variant part = e.matched found inherited) ∧
    ∀ limit number given rootOnly root (w₀ w : World σ) site left again handed between earlier pass
      next queue,
      e.Reaches limit (.start number given rootOnly root) w₀
        (between ++ ⟨site, .replaced found left (.record again) handed⟩ :: earlier) pass w →
      site.owner = inherited → again.component = r.component → again.part = r.part →
      again.variant = r.variant → (∀ t ∈ between, t.site.path ≠ site.path) →
      pass.queue = next :: queue → next.path = site.path →
        pass.tree.at? next.path = some (.record again) ∧ next.owner = owner ∧
          e.resolveOwner again next.owner = (again, owner) ∧
            e.matched again next.owner = e.matched found inherited := by
  have hsome : r.component.isSome := by rw [hc]; rfl
  refine ⟨fun given hg => ?_, ?_, ?_⟩
  · have hagain := resolveOwner_revisited hr hsome hg
    exact ⟨hagain, by rw [matched_eq hagain hc, matched_eq hr hc]⟩
  · intro fuel number site w later pass path key component' variant part earlier hj hn
    obtain ⟨hkey, rfl, rfl, rfl⟩ := applyRules_visits hr hc hj hn
    exact ⟨hkey, (matched_eq hr hc).symm⟩
  · intro limit number given rootOnly root w₀ w site left again handed between earlier pass next
      queue hreach hinherited hcomponent hpart hvariant hbetween hq hp
    obtain ⟨hawaits, hhanded⟩ := hreach.awaits_replacement hbetween
    rw [hinherited, hr] at hhanded
    subst hhanded
    obtain rfl := hawaits.eq_front hreach.sound hq hp
    exact ⟨hawaits.present, rfl, matched_again hr hc hcomponent hpart hvariant⟩

end Engine

/-- The record that takes the place of one that was replaced. -/
def Verdict.replacingRecord? : Verdict → Option Record
  | .kept _ => none
  | .replaced _ replacement => replacement.record?

/-- A part without a component. -/
def Record.handle : Record := { Record.blank with key := 1, part := some "handle" }

/-- The handle of a narrow door. -/
def Record.narrowHandle : Record :=
  { Record.handle with component := some "door", variant := some "narrow" }

namespace Engine

/-- An engine with a default variant for doors and two rules for their handles. The newer rule runs
the other one ahead and answers with the handle itself. -/
def echoing : Engine Unit :=
  (((({} : Engine Unit).setDefaultVariant "door" "wide").register [⟨"door", .any, some "handle"⟩]
    (.write (.tag "p") (.done none))).1.register [⟨"door", .any, some "handle"⟩]
    (.runAhead fun _ => .look fun c => .done (some c.tree))).1

/-- The place of the handle, where a narrow door is handed down. -/
def echoingSite : Site := ⟨[], .listed 0 1, ⟨some "door", some "narrow"⟩, 0⟩

/-- The world in which the handle has come up. -/
def echoingWorld : World Unit :=
  arrive (.start 0 echoingSite.owner false (.record .handle)) echoingSite .narrowHandle
    echoingSite.owner "door" { memory := (), ledger := { passes := 1 } }

/-- The handle comes up in a pass for it alone, and then it is replaced by itself. -/
theorem echoing_applyRules : ∃ left again w',
    echoing.applyRules (echoing.runPass 3) 0 echoingSite.count .narrowHandle "door" (some "narrow")
        echoingWorld = (.ok (.replaced left (.record again)), w') ∧
      (again.component, again.part, again.variant) =
        (some "door", some "handle", some "narrow") ∧
      w'.ledger.journal = [.replaced 0 [] 1 1, .started 1 [] 1 0 (.listed 0 1)] ++
        .visited 1 [] 1 "door" (some "narrow") (some "handle") ::
          ([.started 0 [] 1 1 (.listed 0 1)] ++ echoingWorld.ledger.journal) := by
  have hagain : ((echoing.applyRules (echoing.runPass 3) 0 echoingSite.count .narrowHandle "door"
      (some "narrow") echoingWorld).1.toOption.bind Verdict.replacingRecord?).map
        (fun again => (again.component, again.part, again.variant)) =
      some (some "door", some "handle", some "narrow") := by decide +kernel
  have hjournal : (echoing.applyRules (echoing.runPass 3) 0 echoingSite.count .narrowHandle "door"
      (some "narrow") echoingWorld).2.ledger.journal =
        [.replaced 0 [] 1 1, .started 1 [] 1 0 (.listed 0 1)] ++
          .visited 1 [] 1 "door" (some "narrow") (some "handle") ::
            ([.started 0 [] 1 1 (.listed 0 1)] ++ echoingWorld.ledger.journal) := by decide +kernel
  rcases hv : echoing.applyRules (echoing.runPass 3) 0 echoingSite.count .narrowHandle "door"
    (some "narrow") echoingWorld with ⟨s | (_ | ⟨left, tree⟩), w'⟩ <;> rw [hv] at hagain hjournal
  · cases hagain
  · cases hagain
  · cases tree with
    | record again => exact ⟨left, again, w', rfl, Option.some.inj hagain, hjournal⟩
    | _ => cases hagain

/-- The handle of a narrow door does not fall back to the default variant, neither when it is run
ahead nor when it has taken its own place. -/
theorem revisits_matched_handle :
    echoing.resolveOwner .handle echoingSite.owner = (.narrowHandle, echoingSite.owner) ∧
      echoing.matched .handle echoingSite.owner =
        some (⟨"door", .any, some "handle"⟩, [1, 0]) ∧
      echoing.matched .narrowHandle ⟨some "door", none⟩ =
        echoing.matched .handle echoingSite.owner ∧
      ∃ left again w', echoing.applyRules (echoing.runPass 3) 0 echoingSite.count .narrowHandle
          "door" (some "narrow") echoingWorld = (.ok (.replaced left (.record again)), w') ∧
        (∃ later variant earlier, w'.ledger.journal =
            later ++ .visited 1 [] 1 "door" variant (some "handle") ::
              (earlier ++ echoingWorld.ledger.journal) ∧
          Unreplaced 1 earlier ∧ echoing.rulebook.resolve "door" variant (some "handle") =
            echoing.matched .handle echoingSite.owner) ∧
        ∃ pass next, echoing.Reaches 4 (.start 0 echoingSite.owner false (.record .handle))
            { memory := (), ledger := { passes := 1 } }
            [⟨echoingSite, .replaced .handle left (.record again) echoingSite.owner⟩] pass w' ∧
          pass.queue = [next] ∧ next.path = echoingSite.path ∧
          echoing.matched again next.owner = echoing.matched .handle echoingSite.owner := by
  have hr : echoing.resolveOwner .handle echoingSite.owner =
      (.narrowHandle, echoingSite.owner) := by rfl
  have hc : Record.narrowHandle.component = some "door" := rfl
  obtain ⟨howners, hvisits, hlooks⟩ := echoing.revisits_matched hr hc
  have hgiven : (⟨some "door", none⟩ : Owner) ∈
      [echoingSite.owner, echoingSite.owner, ⟨Record.narrowHandle.component, none⟩] :=
    List.mem_cons_of_mem _ (List.mem_cons_of_mem _ (List.mem_singleton_self _))
  obtain ⟨left, again, w', hv, hagain, hjournal⟩ := echoing_applyRules
  simp only [Prod.mk.injEq] at hagain
  obtain ⟨hcomponent, hpart, hvariant⟩ := hagain
  have hn : Unreplaced 1 [.started 0 [] 1 1 (.listed 0 1)] := by
    intro pass path rule hmem
    simp at hmem
  have hj := (congrArg (fun x => x.2.ledger.journal) hv).trans hjournal
  obtain ⟨-, hvisit⟩ := hvisits 3 0 echoingSite.count echoingWorld _ _ _ _ _ _ _ _ hj hn
  have hreach : echoing.Reaches 4 (.start 0 echoingSite.owner false (.record .handle))
      { memory := (), ledger := { passes := 1 } }
      ([] ++ [⟨echoingSite, .replaced .handle left (.record again) echoingSite.owner⟩]) _ w' :=
    .turn .start rfl (by decide) (.replaced rfl hr hc rfl rfl hv)
  obtain ⟨-, -, -, hmatched⟩ := hlooks 4 0 _ false _ _ w' echoingSite left again _ [] [] _ _ _
    hreach rfl hcomponent hpart hvariant (List.forall_mem_nil _) rfl rfl
  exact ⟨hr, by decide, (howners _ hgiven).2, left, again, w', hv,
    ⟨_, _, _, hjournal, hn, hvisit⟩, _, _, hreach, rfl, rfl, hmatched⟩

end Engine

end ComponentTree
