import ComponentTree.Proofs.Expansion.Fixpoint

/-!
Owners in an expanded tree.

Owners are handed down along the queue and are not read from the tree. While a pass goes on, a
record may still be replaced by one without a component, and parts wait for their owner. But once no
queued path leads to a record that has a component, every site that is queued below it is handed a
component, and every part below it to which no queued path leads has one (`OwnsBelow.turn`). Rules
may put another record of the same identity in the place of their own by a pass for it alone; such a
pass is handed the component of the record, so what it leaves has its owner as well
(`runAhead_owned`). Main statement (`expand_owned`): in the answer of an expansion every part below
a component has a component, and a record of a component that has a default variant has a variant.
-/

namespace ComponentTree

variable {σ : Type}

/-! ### What a deed hands down -/

theorem Site.owner_of_mem_ofItems {base : Path} {owner : Owner} {items : List Node} {s : Site}
    (hs : s ∈ ofItems base owner items) : s.owner = owner := by
  obtain ⟨i, item, -, -, rfl⟩ := mem_ofItems.mp hs
  rfl

/-- The owner that a deed hands down. -/
def Deed.below (site : Site) : Deed → Owner
  | .kept _ _ owner | .replaced _ _ _ owner => owner
  | .missed | .opened _ | .passed _ => site.owner

theorem Deed.owner_of_mem_sites {rootOnly : Bool} {site s : Site} {deed : Deed}
    (hs : s ∈ deed.sites rootOnly site) : s.owner = deed.below site := by
  cases deed with
  | missed | passed => cases hs
  | opened => exact Site.owner_of_mem_ofItems hs
  | kept found left owner =>
    simp only [sites] at hs
    split at hs
    · cases hs
    · rcases Site.mem_ofContent hs with ⟨_, -, hs⟩ | rfl
      · exact Site.owner_of_mem_ofItems hs
      · rfl
  | replaced =>
    rw [List.mem_singleton.mp hs]
    rfl

namespace Engine

variable {e : Engine σ} {fuel : Nat} {pass : Pass} {site : Site} {deed : Deed} {w w' : World σ}

/-- Where a component is handed down, a deed hands one down. -/
theorem Does.below_component {run : Pass → Run σ Pass} (h : e.Does run pass site w deed w')
    (ho : site.owner.component.isSome) : (deed.below site).component.isSome := by
  have handed : ∀ {found r owner}, e.resolveOwner found site.owner = (r, owner) →
      owner.component.isSome := by
    intro found r owner hr
    have hon := resolveOwner_hands_on (e := e) (r := found) ho
    rwa [hr] at hon
  cases h with
  | missed | opened | passed => exact ho
  | plain _ hr | stopped _ hr | kept _ hr | replaced _ hr => exact handed hr

/-- A record with a component hands a component down, whatever its rules made of it. -/
theorem Does.below_of_left {run : Pass → Run σ Pass} {found left : Record} {owner : Owner}
    (h : e.Does run pass site w (.kept found left owner) w') (hc : left.component.isSome) :
    owner.component.isSome := by
  cases h with
  | plain _ _ hn => rw [hn] at hc; cases hc
  | stopped _ hr => rw [resolveOwner_owner hr hc]; exact hc
  | kept _ hr hsome =>
    have hr' := resolveOwner_owner hr (by rw [hsome]; rfl)
    rw [hr', hsome]
    rfl

/-! ### Parts that rules leave -/

/-- The record has its owner if the one before had. -/
abbrev StaysOwned (r : Record) (_ : World σ) (r' : Record) (_ : World σ) : Prop :=
  r.Owned → r'.Owned

/-- Where a component is handed down, a part that rules leave has one. -/
theorem Does.left_owned (hc : e.Carries (e.runPass fuel) StaysOwned)
    (h : e.Does (e.runPass fuel) pass site w deed w') (ho : site.owner.component.isSome)
    {found left : Record} (hl : deed.leaves? = some (found, left)) : left.Owned :=
  hc.does (runPass_moves fuel) h hl (resolveOwner_owned ho)

/-- A pass to which a component is handed down hands one down to all its sites, and leaves no part
without one. -/
theorem Reaches.owned {limit number : Nat} {owner : Owner} {rootOnly : Bool} {root : Node}
    {w₀ : World σ} {turns : List Turn} (hc : ∀ k < limit, e.Carries (e.runPass k) StaysOwned)
    (ho : owner.component.isSome)
    (h : e.Reaches limit (.start number owner rootOnly root) w₀ turns pass w) :
    (∀ s ∈ pass.queue, s.owner.component.isSome) ∧
      ∀ t ∈ turns, ∀ found left, t.deed.leaves? = some (found, left) → left.Owned := by
  induction h with
  | start =>
    refine ⟨fun s hs => ?_, fun t ht => by cases ht⟩
    rw [List.mem_singleton.mp hs]
    exact ho
  | @turn _ pass _ _ site queue _ deed _ hq hf hd ih =>
    obtain ⟨hqueue, hturns⟩ := ih
    rw [hq, List.forall_mem_cons] at hqueue
    constructor
    · intro s hs
      rw [Pass.after_queue, List.mem_append] at hs
      rcases hs with hs | hs
      · exact hqueue.2 s hs
      · rw [Deed.owner_of_mem_sites hs]
        exact hd.below_component hqueue.1
    · rw [List.forall_mem_cons]
      exact ⟨fun found left hl => hd.left_owned (hc _ hf) hqueue.1 hl, hturns⟩

/-- The former root of a pass was left by rules at some turn. -/
theorem Reaches.formerRoot_left {limit number : Nat} {owner : Owner} {rootOnly : Bool}
    {root : Node} {w₀ : World σ} {turns : List Turn}
    (h : e.Reaches limit (.start number owner rootOnly root) w₀ turns pass w) {r : Record}
    (hr : pass.formerRoot = some r) : ∃ t ∈ turns, ∃ found, t.deed.leaves? = some (found, r) := by
  induction h with
  | start => cases hr
  | @turn _ pass _ _ site queue _ deed _ _ _ _ ih =>
    rcases Pass.after_formerRoot { pass with queue } site deed with
      hf | ⟨found, left, hl, -, -, hf⟩ <;> rw [hf] at hr
    · obtain ⟨t, ht, hleft⟩ := ih hr
      exact ⟨t, List.mem_cons_of_mem _ ht, hleft⟩
    · cases hr
      exact ⟨_, List.mem_cons_self .., found, hl⟩

/-- A pass for a plain record alone has not looked at it yet, or it has kept it and is done. -/
theorem Reaches.plain_looked_at {limit number : Nat} {r : Record} {w₀ : World σ}
    {turns : List Turn} (hcomponent : r.component = none) (hpart : r.part = none)
    (h : e.Reaches limit (.start number ⟨r.component, none⟩ true (.record r)) w₀ turns pass w) :
    turns = [] ∨ pass.queue = [] ∧ pass.tree = .record r ∧ pass.formerRoot = none := by
  have hplain : e.resolveOwner r ⟨r.component, none⟩ = (r, ⟨r.component, none⟩) := by
    unfold resolveOwner
    rw [if_neg (by simp [hpart]), if_neg (by simp [hcomponent])]
  have settled : ∀ {found r' owner component},
      (Node.record r).at? [] = some (.record found) →
        e.resolveOwner found ⟨r.component, none⟩ = (r', owner) → r'.component ≠ some component := by
    intro found r' owner component hfound hr
    cases hfound
    rw [hplain] at hr
    cases hr
    rw [hcomponent]
    rintro ⟨⟩
  induction h with
  | start => exact Or.inl rfl
  | turn h hq _ hd ih =>
    refine Or.inr ?_
    rcases ih with rfl | ⟨hdone, -⟩
    · -- this is the first turn, and the record is found
      cases h
      cases hq
      cases hd with
      | missed hn => cases hn
      | opened hn => cases hn
      | passed hn hi => cases hn; cases hi
      | plain hfound hr =>
        cases hfound
        change e.resolveOwner r ⟨r.component, none⟩ = _ at hr
        rw [hplain] at hr
        cases hr
        exact ⟨rfl, rfl, rfl⟩
      | stopped hfound hr hc => exact absurd hc (settled hfound hr)
      | kept hfound hr hc => exact absurd hc (settled hfound hr)
      | replaced hfound hr hc => exact absurd hc (settled hfound hr)
    · rw [hdone] at hq
      cases hq

/-- Running a record ahead that has its owner leaves one that has its owner. -/
theorem runAhead_owned (hcarries : ∀ k < fuel, e.Carries (e.runPass k) StaysOwned)
    {c c' : Context} (h : c.runAhead (e.runPass fuel) w = (.ok c', w'))
    (howned : c.record.Owned) : c'.record.Owned := by
  obtain ⟨number, pass, hp, rfl⟩ := Context.runAhead_eq_ok h
  obtain ⟨turns, hr, hq⟩ := runPass_reaches (Nat.le_refl fuel) .start hp
  cases hcomponent : c.record.component with
  | some component =>
    have hleft := (hr.owned hcarries (by rw [hcomponent]; rfl)).2
    rcases c.settle_record pass with ⟨r, ht, -, hs⟩ | ⟨-, hs⟩ <;> rw [hs]
    · have hroot : pass.tree.at? [] = some (.record r) := by rw [Node.at?_nil, ht]
      obtain ⟨later, site, found, left, owner, earlier, hturns, -, -, hl, -⟩ :=
        hr.kept_of_done hq (fun _ => List.not_mem_nil) hroot
      rw [hl]
      exact hleft ⟨site, .kept found left owner⟩ (by rw [hturns]; simp) found left rfl
    · cases hf : pass.formerRoot with
      | none => exact howned
      | some r =>
        obtain ⟨t, ht, found, hl⟩ := hr.formerRoot_left hf
        exact hleft t ht found r hl
  | none =>
    have hpart : c.record.part = none := by
      cases hpart : c.record.part with
      | none => rfl
      | some _ =>
        have hsome := howned (by rw [hpart]; rfl)
        rw [hcomponent] at hsome
        cases hsome
    rcases hr.plain_looked_at hcomponent hpart with rfl | ⟨-, ht, hf⟩
    · -- a pass that is done has looked at its record
      cases hr
      cases hq
    · rcases c.settle_record pass with ⟨r, ht', -, hs⟩ | ⟨-, hs⟩ <;> rw [hs]
      · rw [ht, Node.record.injEq] at ht'
        exact ht' ▸ howned
      · rw [hf]
        exact howned

/-- Whatever rules do, they leave no part without a component if they were given none. -/
theorem carries_staysOwned (e : Engine σ) (fuel : Nat) : e.Carries (e.runPass fuel) StaysOwned where
  trans h h' := h' ∘ h
  write r _ x h := by cases x <;> exact h
  moves _ _ _ _ := id
  ahead := runAhead_owned fun k _ => carries_staysOwned e k

end Engine

/-! ### Parts below a component -/

namespace Pass

/-- At the path stands a record with a component to which no queued path leads. -/
def Owns (pass : Pass) (path : Path) : Prop :=
  ∃ r, pass.tree.at? path = some (.record r) ∧ r.component.isSome ∧ ¬ pass.Covers path

/-- Below such a record all sites are handed a component, and all parts to which no queued path
leads have one. -/
structure OwnsBelow (pass : Pass) : Prop where
  queue : ∀ path, pass.Owns path → ∀ s ∈ pass.queue, path ++ [.content] <+: s.path →
    s.owner.component.isSome
  parts : ∀ path, pass.Owns path → ∀ rest part,
    pass.tree.at? (path ++ .content :: rest) = some (.record part) →
      ¬ pass.Covers (path ++ .content :: rest) → part.Owned

variable {e : Engine σ} {fuel : Nat} {pass : Pass} {site : Site} {queue : List Site} {deed : Deed}
  {w w' : World σ}

/-- A record that owns what is below it after a turn did so before, or it was kept just now and
hands a component down. -/
theorem Sound.owns_after (h : pass.Sound) (hro : pass.rootOnly = false)
    (hq : pass.queue = site :: queue)
    (hd : e.Does (e.runPass fuel) { pass with queue } site w deed w') {path : Path}
    (ho : (after { pass with queue } site deed).Owns path) :
    (path = site.path ∧ (deed.below site).component.isSome) ∨ pass.Owns path := by
  obtain ⟨r, hr, hc, hn⟩ := ho
  have hscope : Path.InScope pass.rootOnly path := fun h => by rw [hro] at h; cases h
  rcases h.record_after hq hd hscope hr hn with
    ⟨rfl, found, left, owner, rfl, rfl⟩ | ⟨hn₀, r₀, h₀, hr₀, -⟩
  · rw [left.settledIn_eq] at hc
    exact Or.inl ⟨rfl, hd.below_of_left hc⟩
  · rw [hr₀] at hc
    exact Or.inr ⟨r₀, h₀, hc, hn₀⟩

/-- A turn of a pass over a whole tree keeps owners in place. -/
theorem OwnsBelow.turn (h : pass.OwnsBelow) (hsound : pass.Sound) (hro : pass.rootOnly = false)
    (hq : pass.queue = site :: queue)
    (hd : e.Does (e.runPass fuel) { pass with queue } site w deed w') :
    (after { pass with queue } site deed).OwnsBelow := by
  have hfront : site ∈ pass.queue := by rw [hq]; exact List.mem_cons_self ..
  constructor
  · intro path ho s hs hbelow
    rw [after_queue, List.mem_append] at hs
    rcases hsound.owns_after hro hq hd ho with ⟨rfl, hdown⟩ | ho
    · -- the other sites are apart from the record, and the new ones are handed what it hands down
      rcases hs with hs | hs
      · exact absurd ((List.prefix_append ..).trans hbelow) (hsound.apart_front hq hs).1
      · rw [Deed.owner_of_mem_sites hs]
        exact hdown
    · rcases hs with hs | hs
      · exact h.queue path ho s (by rw [hq]; exact List.mem_cons_of_mem _ hs) hbelow
      · -- a new site is below the one that was looked at, and so this one is below the record
        have hsite : path ++ [.content] <+: site.path := by
          rcases List.prefix_or_prefix_of_prefix hbelow (Deed.sites_below hs) with hp | hp
          · exact hp
          · rcases List.prefix_concat_iff.mp hp with heq | hp
            · exact heq ▸ List.prefix_rfl
            · obtain ⟨_, _, _, hn⟩ := ho
              exact absurd ⟨site, hfront, hp⟩ hn
        rw [Deed.owner_of_mem_sites hs]
        exact hd.below_component (h.queue path ho site hfront hsite)
  · intro path ho rest part hp hn
    have hscope : Path.InScope pass.rootOnly (path ++ .content :: rest) :=
      fun h => by rw [hro] at h; cases h
    rcases hsound.record_after hq hd hscope hp hn with
      ⟨heq, found, left, owner, rfl, rfl⟩ | ⟨hn₀, part₀, hp₀, hpart₀, -⟩
    · rcases hsound.owns_after hro hq hd ho with ⟨rfl, -⟩ | ho
      · exact absurd heq (by simp)
      · have hbelow : path ++ [.content] <+: site.path := ⟨rest, by rw [← heq]; simp⟩
        have howned : left.Owned := hd.left_owned (e.carries_staysOwned fuel)
          (h.queue path ho site hfront hbelow) rfl
        rw [left.settledIn_eq]
        exact howned
    · rcases hsound.owns_after hro hq hd ho with ⟨rfl, -⟩ | ho
      · -- what is below a record that was kept just now was covered before
        exact absurd ⟨site, hfront, List.prefix_append ..⟩ hn₀
      · rw [hpart₀]
        exact h.parts path ho rest part₀ hp₀ hn₀

end Pass

namespace Engine

variable {e : Engine σ}

/-- In a pass over a whole tree owners are in place, at every turn. -/
theorem Reaches.ownsBelow {limit number : Nat} {owner : Owner} {root : Node} {pass : Pass}
    {w₀ w : World σ} {turns : List Turn}
    (h : e.Reaches limit (.start number owner false root) w₀ turns pass w) : pass.OwnsBelow := by
  induction h with
  | start =>
    have nothing : ∀ path, ¬ (Pass.start number owner false root).Owns path :=
      fun path ⟨_, _, _, hn⟩ => hn ⟨_, List.mem_singleton_self _, List.nil_prefix⟩
    exact ⟨fun path ho => absurd ho (nothing path), fun path ho => absurd ho (nothing path)⟩
  | turn hreach hq _ hd ih => exact ih.turn hreach.sound hreach.rootOnly_eq hq hd

/-- In the answer of an expansion, every part that lies below a record with a component has a
component itself, and where a record has a component and no variant, that component has no default
variant. -/
theorem expand_owned {fuel : Nat} {nextKey : Key} {memory : σ} {root tree : Node}
    (h : (e.expand fuel nextKey memory root).answer = .ok tree) :
    (∀ path r, tree.at? path = some (.record r) → r.component.isSome → ∀ rest part,
      tree.at? (path ++ .content :: rest) = some (.record part) → part.part.isSome →
        part.component.isSome) ∧
    ∀ path r component, tree.at? path = some (.record r) → r.component = some component →
      r.variant = none → e.rulebook.defaultVariant? component = none := by
  obtain ⟨number, w₀, pass, w, hp, rfl, -⟩ := expand_eq_ok h
  obtain ⟨turns, hreach, hq⟩ := runPass_reaches (Nat.le_refl fuel) .start hp
  have uncovered : ∀ path, ¬ pass.Covers path := by
    rintro path ⟨s, hs, -⟩
    rw [hq] at hs
    cases hs
  constructor
  · intro path r hr hc rest part hpart
    exact hreach.ownsBelow.parts path ⟨r, hr, hc, uncovered path⟩ rest part hpart (uncovered _)
  · intro path r component hr hc hv
    have hscope : Path.InScope false path := fun hro => by cases hro
    have hres := (hreach.settled_of_done (fun k _ => e.carries_tracked k) hq hscope hr).1 hv
    rw [hc] at hres
    exact hres

end Engine

/-- A cover of whatever it is in. -/
def Record.cover : Record := { Record.blank with key := 3, part := some "cover" }

/-- An engine with two rules for boxes, which are wide if nothing else is said. The newer rule runs
the other one ahead and puts a plain record around the box; the other one puts a cover into it. -/
def Engine.covering : Engine Unit where
  rulebook := (((({} : Rulebook Unit).register [⟨"box", .any, none⟩]
    (.write (.content (.list [.record .cover])) (.done none))).1.register
    [⟨"box", .any, none⟩] (.runAhead fun _ => .look fun c =>
      .done (some (.record { Record.blank with
        key := 2
        content := c.tree })))).1).setDefaultVariant "box" "wide"

/-- The box has moved into the plain record, and the cover in it belongs to it. The frame beside it
has no variant, and there is no default one. -/
theorem Engine.covering_owned :
    let root : Node := .list [.record .box, .record { Record.blank with component := some "frame" }]
    ∃ tree box cover frame, (covering.expand 9 4 () root).answer = .ok tree ∧
      tree.at? [.item 0, .content] = some (.record box) ∧ box.component = some "box" ∧
      tree.at? [.item 0, .content, .content, .item 0] = some (.record cover) ∧
      cover.part = some "cover" ∧ cover.component.isSome ∧
      tree.at? [.item 1] = some (.record frame) ∧ frame.component = some "frame" ∧
      frame.variant = none ∧ covering.rulebook.defaultVariant? "frame" = none := by
  intro root
  have hbox : ((covering.expand 9 4 () root).record? [.item 0, .content]).map (·.component) =
      some (some "box") := by decide +kernel
  have hcover : ((covering.expand 9 4 () root).record? [.item 0, .content, .content, .item 0]).map
      (·.part) = some (some "cover") := by decide +kernel
  have hframe : ((covering.expand 9 4 () root).record? [.item 1]).map
      (fun r => (r.component, r.variant)) = some (some "frame", none) := by decide +kernel
  obtain ⟨box, hbox, hboxOwner⟩ := Option.map_eq_some_iff.mp hbox
  obtain ⟨cover, hcover, hpart⟩ := Option.map_eq_some_iff.mp hcover
  obtain ⟨frame, hframe, hframeOwner⟩ := Option.map_eq_some_iff.mp hframe
  obtain ⟨tree, ha, hbox⟩ := Expansion.record?_eq_some hbox
  have hcover := Expansion.at?_of_record? ha hcover
  have hframe := Expansion.at?_of_record? ha hframe
  obtain ⟨hcomponent, hvariant⟩ := Prod.mk.inj hframeOwner
  obtain ⟨hparts, hdefaults⟩ := expand_owned ha
  exact ⟨tree, box, cover, frame, ha, hbox, hboxOwner, hcover, hpart,
    hparts [.item 0, .content] box hbox (by rw [hboxOwner]; rfl) [.item 0] cover hcover
      (by rw [hpart]; rfl), hframe, hcomponent, hvariant,
    hdefaults [.item 1] frame "frame" hframe hcomponent hvariant⟩

end ComponentTree
