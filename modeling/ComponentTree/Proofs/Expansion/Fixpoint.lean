import ComponentTree.Proofs.Expansion.AtMostOnce
import ComponentTree.Proofs.Expansion.Settled
import ComponentTree.Proofs.Rule.Rulebook

/-!
Expansion reaches a fixpoint.

A pass for a record alone looks at its root once. It keeps the root and is done, or it replaces the
root and remembers it as the former one (`Reaches.root_first`). In either case the rule that
asked for the pass goes on with a record that is matched like the one before or is settled
(`runAhead_tracked`). As passes that rules ask for have fewer steps than the pass around them, this
holds of passes of any number of steps (`carries_tracked`). Main statement (`expand_fixpoint`): in
the tree that an expansion answers with, no record has a rule that it is matched by and that was
not run on it, unless the record is stopped.
-/

namespace ComponentTree

variable {σ : Type}

/-- A former root is not replaced by another one. -/
theorem Pass.after_formerRoot_of_some {pass : Pass} {r : Record} (h : pass.formerRoot = some r)
    (site : Site) (deed : Deed) : (pass.after site deed).formerRoot = some r := by
  rcases pass.after_formerRoot site deed with hf | ⟨_, left, -, hn, -⟩
  · rw [hf, h]
  · rw [h] at hn
    cases hn

namespace Engine

open World

variable {e : Engine σ}

/-- A pass for a record alone has not looked at it yet, or it has kept it and is done, or its first
turn replaced the record and the pass remembers it as it was left then. -/
theorem Reaches.root_first {limit number : Nat} {owner : Owner} {r : Record} {pass : Pass}
    {w₀ w : World σ} {turns : List Turn}
    (h : e.Reaches limit (.start number owner true (.record r)) w₀ turns pass w) :
    turns = [] ∨
      (pass.queue = [] ∧ ∃ left, pass.tree = .record left ∧ left.key = r.key) ∨
      ∃ later left replacement owner', pass.formerRoot = some left ∧
        turns = later ++ [⟨⟨[], .listed 0 1, owner, 0⟩, .replaced r left replacement owner'⟩] ∧
        ∃ fuel < limit, ∃ w₁, Moves e w₁ w ∧ e.Does (e.runPass fuel)
          { Pass.start number owner true (.record r) with queue := [] } ⟨[], .listed 0 1, owner, 0⟩
          w₀ (.replaced r left replacement owner') w₁ := by
  induction h with
  | start => exact Or.inl rfl
  | @turn turns pass w w' site queue fuel deed h hq hf hd ih =>
    refine Or.inr ?_
    rcases ih with rfl | ⟨hdone, -⟩ | ⟨later, left, replacement, owner', hleft, rfl, hfirst⟩
    · -- this is the first turn, and the record is found
      cases h
      cases hq
      rcases hd.of_record rfl with ⟨left, owner', rfl⟩ | ⟨left, replacement, owner', rfl⟩
      · exact Or.inl ⟨rfl, left, rfl, hd.key rfl⟩
      · exact Or.inr ⟨[], left, replacement, owner',
          Pass.after_replaced_formerRoot _ _ _ _ rfl (congrArg some (hd.key rfl)), rfl, fuel, hf,
          w',
          .refl, hd⟩
    · rw [hdone] at hq
      cases hq
    · have hleft' : ({ pass with queue } : Pass).formerRoot = some left := hleft
      obtain ⟨fuel₁, hf₁, w₁, hm, hd₁⟩ := hfirst
      exact Or.inr ⟨⟨site, deed⟩ :: later, left, replacement, owner',
        Pass.after_formerRoot_of_some hleft' site deed, rfl, fuel₁, hf₁, w₁, hm.trans hd.moves, hd₁⟩

/-- A pass for a record whose owner is filled in tracks it until the record is first replaced. -/
theorem Reaches.root_looked_at {limit number : Nat} {r : Record} {pass : Pass} {w₀ w : World σ}
    {turns : List Turn} (hc : ∀ fuel < limit, e.Carries (e.runPass fuel) e.Tracked)
    (hres : e.Resolved r)
    (h : e.Reaches limit (.start number ⟨r.component, none⟩ true (.record r)) w₀ turns pass w) :
    turns = [] ∨
      (pass.queue = [] ∧ ∃ left, pass.tree = .record left ∧ left.key = r.key) ∨
      ∃ left, pass.formerRoot = some left ∧ e.Tracks r left w := by
  refine h.root_first.imp id (Or.imp id ?_)
  rintro ⟨_, left, _, _, hleft, _, fuel, hf, w₁, hm, hd⟩
  have ht := hd.tracks (hc fuel hf) rfl
  rw [resolveOwner_of_resolved hres] at ht
  exact ⟨left, hleft, ht.mono hm⟩

/-- At the end of a pass, a record that it goes to was left settled. -/
theorem Reaches.settled_of_done {limit number : Nat} {owner : Owner} {rootOnly : Bool}
    {root : Node} {pass : Pass} {w₀ w : World σ} {turns : List Turn}
    (hc : ∀ fuel < limit, e.Carries (e.runPass fuel) e.Tracked)
    (h : e.Reaches limit (.start number owner rootOnly root) w₀ turns pass w)
    (hq : pass.queue = []) {path : Path} {r : Record} (hs : Path.InScope rootOnly path)
    (hr : pass.tree.at? path = some (.record r)) : e.Resolved r ∧ e.Settled r w := by
  obtain ⟨later, site, found, left, owner, earlier, hturns, -, -, hl, -⟩ := h.kept_of_done hq hs hr
  have hf : r.Follows left := .of_content hl
  have hmem : ⟨site, .kept found left owner⟩ ∈ turns := by
    rw [hturns]
    exact List.mem_append_right _ (List.mem_cons_self ..)
  obtain ⟨hres, hset⟩ := h.kept_settled hc hmem
  exact ⟨hres.follows hf, hset.mono hf .refl⟩

/-- Running a record ahead leaves one that is matched like it or is settled. -/
theorem runAhead_tracked {fuel : Nat} (hc : ∀ k < fuel, e.Carries (e.runPass k) e.Tracked)
    {c c' : Context} {w w' : World σ} (h : c.runAhead (e.runPass fuel) w = (.ok c', w')) :
    e.Tracked c.record w c'.record w' := by
  have hm := c.runAhead_moves (e := e) (runPass_moves fuel) w
  rw [h] at hm
  refine ⟨hm, fun hres => ?_⟩
  obtain ⟨number, pass, hp, rfl⟩ := Context.runAhead_eq_ok h
  obtain ⟨turns, hr, hq⟩ := runPass_reaches (Nat.le_refl fuel) .start hp
  rcases c.settle_record pass with ⟨r, ht, -, hs⟩ | ⟨hne, hs⟩ <;> rw [hs]
  · have hroot : pass.tree.at? [] = some (.record r) := by rw [Node.at?_nil, ht]
    obtain ⟨hres', hset⟩ := hr.settled_of_done hc hq (fun _ => List.not_mem_nil) hroot
    exact ⟨hres', Or.inr hset⟩
  · rcases hr.root_looked_at hc hres with rfl | ⟨-, left, ht, hk⟩ | ⟨left, hleft, ht⟩
    · -- a pass that is done has looked at its root
      cases hr
      cases hq
    · exact absurd hk (hne left ht)
    · rw [hleft]
      exact ht

/-- Whatever rules do, they leave a record that is matched like the one they were given or is
settled. -/
theorem carries_tracked (e : Engine σ) (fuel : Nat) : e.Carries (e.runPass fuel) e.Tracked where
  trans h h' := ⟨h.1.trans h'.1, fun hr => (h.2 hr).trans (h'.2 (h.2 hr).resolved) h'.1⟩
  write r _ x := ⟨.refl, fun hr => .of_follows hr (.write r x)⟩
  moves r _ _ hm := ⟨hm, fun hr => .of_follows hr (.refl r)⟩
  ahead := runAhead_tracked fun k _ => carries_tracked e k

/-- An expansion with an answer is a pass over the whole tree. -/
theorem expand_eq_ok {fuel : Nat} {nextKey : Key} {memory : σ} {root tree : Node}
    (h : (e.expand fuel nextKey memory root).answer = .ok tree) :
    ∃ number w₀ pass w, e.runPass fuel (.start number {} false root) w₀ = (.ok pass, w) ∧
      tree = pass.tree ∧ (e.expand fuel nextKey memory root).ledger = w.ledger := by
  have hx : ∀ {x : Except Stop Node × World σ},
      e.expandIn fuel root { nextKey, nextId := e.nextId, memory } = x →
        (e.expand fuel nextKey memory root).answer = x.1 ∧
          (e.expand fuel nextKey memory root).ledger = x.2.ledger := by
    rintro x rfl
    exact ⟨rfl, rfl⟩
  rcases hw : e.expandIn fuel root { nextKey, nextId := e.nextId, memory } with ⟨answer, w⟩
  obtain ⟨ha, hl⟩ := hx hw
  rw [ha] at h
  dsimp only at h
  subst h
  unfold expandIn at hw
  obtain ⟨number, w₁, -, hw⟩ := Run.bind_eq_ok hw
  obtain ⟨pass, w₂, hp, hw⟩ := Run.bind_eq_ok hw
  obtain ⟨rfl, rfl⟩ := Run.pure_eq_ok hw
  exact ⟨number, w₁, pass, w₂, hp, rfl, hl⟩

/-- If an expansion has an answer, every record in it that has a component is stopped, or all rules
that it is matched by were started on its identity. -/
theorem expand_fixpoint (hb : e.rulebook.Built) {fuel : Nat} {nextKey : Key} {memory : σ}
    {root tree : Node} (h : (e.expand fuel nextKey memory root).answer = .ok tree) {path : Path}
    {r : Record} (hr : tree.at? path = some (.record r)) {component : String}
    (hcomp : r.component = some component) :
    r.rendering.stopped = true ∨
      ∀ s rules, e.rulebook.resolve component r.variant r.part = some (s, rules) →
        ∀ rule ∈ rules, (r.key, rule) ∈ (e.expand fuel nextKey memory root).ledger.starts := by
  have hstarted := e.expand_marksStarted fuel nextKey memory root
  obtain ⟨number, w₀, pass, w, hp, rfl, hl⟩ := expand_eq_ok h
  rw [hl] at hstarted ⊢
  obtain ⟨turns, hreach, hq⟩ := runPass_reaches (Nat.le_refl fuel) .start hp
  have hscope : Path.InScope false path := fun hro => by cases hro
  have hset := (hreach.settled_of_done (fun k _ => e.carries_tracked k) hq hscope hr).2
  refine hset.imp id fun hmarks s rules hres rule hmem => ?_
  exact hstarted _ _ (hmarks component s rules hcomp hres rule hmem) (hb.body?_isSome hres hmem)

end Engine

/-- A box with an identity of its own. -/
def Record.box : Record := { Record.blank with key := 1, component := some "box" }

/-- An engine whose one rule runs the other rules of a box ahead and puts a plain record around what
they left. -/
def Engine.wrapping : Engine Unit where
  rulebook := (({} : Rulebook Unit).register [⟨"box", .none, none⟩]
    (.runAhead fun _ => .look fun c =>
      .done (some (.record { Record.blank with key := 2, content := c.tree })))).1

/-- The record at a path of the answer, if there is one. -/
def Expansion.record? (x : Expansion σ) (path : Path) : Option Record :=
  x.answer.toOption.bind fun tree => (tree.at? path).bind Node.record?

theorem Expansion.record?_eq_some {x : Expansion σ} {path : Path} {r : Record}
    (h : x.record? path = some r) :
    ∃ tree, x.answer = .ok tree ∧ tree.at? path = some (.record r) := by
  obtain ⟨tree, ht, h⟩ := Option.bind_eq_some_iff.mp h
  obtain ⟨node, hn, hr⟩ := Option.bind_eq_some_iff.mp h
  refine ⟨tree, ?_, ?_⟩
  · cases ha : x.answer with
    | error s => rw [ha] at ht; cases ht
    | ok t => rw [ha] at ht; cases ht; rfl
  · cases node <;> cases hr
    exact hn

theorem Expansion.at?_of_record? {x : Expansion σ} {tree : Node} {path : Path} {r : Record}
    (ha : x.answer = .ok tree) (h : x.record? path = some r) :
    tree.at? path = some (.record r) := by
  obtain ⟨tree', ha', hr⟩ := record?_eq_some h
  obtain rfl : tree = tree' := Except.ok.inj (ha.symm.trans ha')
  exact hr

/-- A box comes up again inside the record that its rule puts around it, and has had the rule. -/
theorem Engine.expand_fixpoint_wrapped :
    wrapping.rulebook.Built ∧ ∃ tree r,
      (wrapping.expand 5 3 () (.record .box)).answer = .ok tree ∧
      tree.at? [.content] = some (.record r) ∧ r.component = some "box" ∧
      (r.key, 0) ∈ (wrapping.expand 5 3 () (.record .box)).ledger.starts := by
  have hb : wrapping.rulebook.Built := .register .empty _ _
  have hinner : ((wrapping.expand 5 3 () (.record .box)).record? [.content]).map
      (fun r => (r.component, r.variant, r.part, r.rendering.stopped)) =
        some (some "box", none, none, false) := by decide +kernel
  obtain ⟨r, hr, hfields⟩ := Option.map_eq_some_iff.mp hinner
  simp only [Prod.mk.injEq] at hfields
  obtain ⟨hc, hv, hp, hs⟩ := hfields
  obtain ⟨tree, ha, hat⟩ := Expansion.record?_eq_some hr
  refine ⟨hb, tree, r, ha, hat, hc, ?_⟩
  rcases expand_fixpoint hb ha hat hc with h | h
  · rw [hs] at h
    cases h
  · exact h ⟨"box", .none, none⟩ [0] (by rw [hv, hp]; decide) 0 (List.mem_singleton_self 0)

end ComponentTree
