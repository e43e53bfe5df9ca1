import ComponentTree.Proofs.Expansion.Entries
import ComponentTree.Proofs.Expansion.Fixpoint
import ComponentTree.Proofs.Expansion.Fuel

/-!
Positions that rules are told.

A rule is told the position of the site that its record was found at. In the tree of the pass this
is the slot of the record: its place in the list around it, or the sole content of the record around
it, or the root, which counts as the first of one. The slot stays the same while other sites are
looked at, since a place is not looked at again once what is in it was queued (`Reaches.placed`).
Main statement (`expand_positions`): in the pass over the whole tree every rule is told the slot of
its record, and in passes for a record alone the rules of this record are told that it is the first
of one, whatever its slot in the tree around it is.
-/

namespace ComponentTree

variable {σ : Type}

/-- The slot of a tree to which a path leads. -/
inductive Node.Slot (tree : Node) : Path → Position → Prop
  | root : Slot tree [] (.listed 0 1)
  | item {base : Path} {items : List Node} {i : Nat} (h : tree.at? base = some (.list items))
      (hi : i < items.length) : Slot tree (base ++ [.item i]) (.listed i items.length)
  | content {base : Path} {r : Record} (h : tree.at? base = some (.record r)) :
      Slot tree (base ++ [.content]) .alone

namespace Node

/-- A node that is put somewhere leaves the slots that are not inside it. -/
theorem Slot.put {tree : Node} {p q : Path} {position : Position} (h : tree.Slot q position)
    (new : Node) (hp : p <+: q → p = q) : (put new p tree).Slot q position := by
  -- of the node around the slot, the new node can be a part only
  have around : ∀ {base : Path} {edge : Edge}, q = base ++ [edge] →
      (∃ rest, rest ≠ [] ∧ p = base ++ rest) ∨ Path.Apart p base := by
    rintro base edge rfl
    rcases Path.through_or_above_or_apart p base with ⟨rest, rfl⟩ | habove | hapart
    · have heq := congrArg List.length (hp ⟨rest ++ [edge], by simp⟩)
      simp only [List.length_append, List.length_singleton] at heq
      omega
    · exact Or.inl habove
    · exact Or.inr hapart
  cases h with
  | root => exact .root
  | @item base items i h hi =>
    rcases around rfl with ⟨rest, hrest, rfl⟩ | hapart
    · have hat := at?_put_below new tree base rest
      rw [h, Option.map_some] at hat
      obtain ⟨edge, rest, rfl⟩ := List.exists_cons_of_ne_nil hrest
      cases edge with
      | item j =>
        rw [Node.put] at hat
        have hslot := Slot.item hat (i := i) (by simpa using hi)
        rwa [List.length_modify] at hslot
      | content => exact .item hat hi
    · exact .item (by rw [at?_put_apart new tree hapart, h]) hi
  | @content base r h =>
    rcases around rfl with ⟨rest, hrest, rfl⟩ | hapart
    · have hat := at?_put_below new tree base rest
      rw [h, Option.map_some] at hat
      obtain ⟨edge, rest, rfl⟩ := List.exists_cons_of_ne_nil hrest
      cases edge with
      | item j => exact .content hat
      | content => exact .content hat
    · exact .content (by rw [at?_put_apart new tree hapart, h])

/-- The root is the first of one. -/
theorem Slot.of_nil {tree : Node} {position : Position} (h : tree.Slot [] position) :
    position = .listed 0 1 := by
  generalize hq : ([] : Path) = q at h
  cases h with
  | root => rfl
  | item => simp at hq
  | content => simp at hq

end Node

/-! ### Sites and their slots -/

/-- The site sits where its path leads. -/
def Site.SitsIn (site : Site) (tree : Node) : Prop := tree.Slot site.path site.position

/-- All sites that wait or were looked at sit where their paths lead, and no place is still to be
looked at that one of those looked at is inside of. -/
structure Pass.Placed (pass : Pass) (turns : List Turn) : Prop where
  queued : ∀ s ∈ pass.queue, s.SitsIn pass.tree
  done : ∀ t ∈ turns, t.site.SitsIn pass.tree
  outside : ∀ t ∈ turns, ∀ s ∈ pass.queue, s.path <+: t.site.path → s.path = t.site.path

theorem Pass.after_sitsIn {pass : Pass} {site : Site} (deed : Deed) {s : Site}
    (h : s.SitsIn pass.tree) (hp : site.path <+: s.path → site.path = s.path) :
    s.SitsIn (pass.after site deed).tree := by
  rcases pass.after_tree site deed with ht | ⟨node, -, -, ht⟩ <;> rw [ht]
  · exact h
  · exact h.put node hp

namespace Engine

variable {e : Engine σ}

/-- The sites that a deed queues sit where their paths lead. -/
theorem Does.sites_sitIn {run : Pass → Run σ Pass} {pass : Pass} {site : Site} {deed : Deed}
    {w w' : World σ} (h : e.Does run pass site w deed w') (hsite : site.SitsIn pass.tree) {s : Site}
    (hs : s ∈ deed.sites pass.rootOnly site) : s.SitsIn (pass.after site deed).tree := by
  have hpresent : (pass.tree.at? site.path).isSome := by
    cases h with
    | missed => cases hs
    | _ => simp only [*, Option.isSome_some]
  have hat := h.at?_site hpresent
  have hitems : ∀ {base : Path} {owner : Owner} {items : List Node},
      (pass.after site deed).tree.at? base = some (.list items) →
      s ∈ Site.ofItems base owner items → s.SitsIn (pass.after site deed).tree := by
    intro base owner items hlist hs
    obtain ⟨i, item, hi, -, rfl⟩ := Site.mem_ofItems.mp hs
    exact .item hlist (List.getElem?_eq_some_iff.mp hi).1
  cases deed with
  | missed => cases hs
  | passed => cases hs
  | opened items => exact hitems (by simpa [Node.at?_nil, Deed.node?] using hat []) hs
  | kept found left owner =>
    simp only [Deed.sites] at hs
    split at hs
    · cases hs
    rename_i hro
    rw [Bool.not_eq_true] at hro
    simp only [Deed.node?, Record.settledIn, hro, Option.bind_some] at hat
    rcases Site.mem_ofContent hs with ⟨items, hc, hs⟩ | rfl
    · refine hitems ?_ hs
      rw [hat [.content], ← hc]
      simp [Node.at?_content_record, Node.at?_nil]
    · exact .content (by simpa [Node.at?_nil] using hat [])
  | replaced found left replacement owner =>
    rw [List.mem_singleton.mp hs]
    exact Pass.after_sitsIn (s := { site.count with owner }) _ hsite fun _ => rfl

namespace Reaches

variable {limit number : Nat} {owner : Owner} {rootOnly : Bool} {root : Node} {pass : Pass}
  {w₀ w : World σ} {turns : List Turn}

/-- At every turn of every pass, the sites sit where their paths lead. -/
theorem placed (h : e.Reaches limit (.start number owner rootOnly root) w₀ turns pass w) :
    pass.Placed turns := by
  induction h with
  | start =>
    refine ⟨fun s hs => ?_, List.forall_mem_nil _, List.forall_mem_nil _⟩
    rw [List.mem_singleton.mp hs]
    exact .root
  | @turn turns pass w w' site queue fuel deed h hq hf hd ih =>
    have hfront : site ∈ pass.queue := hq ▸ List.mem_cons_self ..
    have hbehind : ∀ {s}, s ∈ queue → s ∈ pass.queue := fun hs => hq ▸ List.mem_cons_of_mem _ hs
    have hsite : site.SitsIn ({ pass with queue } : Pass).tree := ih.queued site hfront
    have hafter : ∀ {s : Site}, s.SitsIn pass.tree → (site.path <+: s.path → site.path = s.path) →
        s.SitsIn (Pass.after { pass with queue } site deed).tree :=
      fun hs hp => Pass.after_sitsIn deed hs hp
    refine ⟨fun s hs => ?_, fun t ht => ?_, fun t ht s hs hp => ?_⟩
    · rw [Pass.after_queue, List.mem_append] at hs
      rcases hs with hs | hs
      · exact hafter (ih.queued s (hbehind hs)) fun hp =>
          absurd hp (h.sound.apart_front hq hs).1
      · exact hd.sites_sitIn hsite hs
    · rcases List.mem_cons.mp ht with rfl | ht
      · exact hafter hsite fun _ => rfl
      · exact hafter (ih.done t ht) (ih.outside t ht site hfront)
    · rw [Pass.after_queue, List.mem_append] at hs
      rcases List.mem_cons.mp ht with rfl | ht <;> rcases hs with hs | hs
      · exact absurd hp (h.sound.apart_front hq hs).2
      · exact hp.eq_of_length_le (Deed.sites_below hs).length_le
      · exact ih.outside t ht s (hbehind hs) hp
      · -- the site leads through the old one, so it is the same, and the new one lies below it
        have hbelow := Deed.sites_below hs
        have heq := ih.outside t ht site hfront (hbelow.trans hp)
        exact hp.eq_of_length_le (heq ▸ hbelow.length_le)

end Reaches

end Engine

/-! ### What rules are told -/

/-- If the event is the start of a rule, `P` holds of the position that the rule is told. -/
def Event.Tells (P : Nat → Path → Position → Prop) (event : Event) : Prop :=
  ∀ number path key rule position,
    event = .started number path key rule position → P number path position

theorem Event.Tells.mono {P P' : Nat → Path → Position → Prop} {event : Event}
    (h : event.Tells P) (hP : ∀ number path position, P number path position →
      P' number path position) : event.Tells P' :=
  fun _ _ _ _ _ he => hP _ _ _ (h _ _ _ _ _ he)

theorem Event.identified_tells (P : Nat → Path → Position → Prop) (id : String) :
    (Event.identified id).Tells P := by
  rintro _ _ _ _ _ ⟨⟩

/-- Of what a pass enters about a site, the start of a rule tells the position of the site. -/
theorem Event.Of.tells {P : Nat → Path → Position → Prop} {number : Nat} {site : Site}
    {event : Event} (h : event.Of number site) (hP : P number site.path site.position) :
    event.Tells P := by
  rintro _ _ _ _ _ rfl
  cases h
  exact hP

/-- The pass is none before `least`, and at its root rules are told that it is the first of one. -/
def FirstOfOne (least number : Nat) (path : Path) (position : Position) : Prop :=
  least ≤ number ∧ (path = [] → position = .listed 0 1)

/-- The pass is the one of the given number and tree, and the position is that of a slot, or the
pass is a later one. -/
def SlotOf (number : Nat) (tree : Node) (least n : Nat) (path : Path) (position : Position) :
    Prop :=
  FirstOfOne least n path position ∨ n = number ∧ tree.Slot path position

namespace Engine

variable {e : Engine σ} {limit least number fuel : Nat} {owner : Owner} {rootOnly : Bool}
  {root : Node} {w₀ : World σ}

/-- In a pass, rules are told the positions of the sites that were looked at, apart from the rules
of passes that they ask for. -/
theorem Reaches.tells {turns : List Turn} {pass : Pass} {w : World σ}
    (hahead : ∀ fuel < limit, ∀ (c : Context) (w : World σ), least ≤ w.ledger.passes →
      w.Enters (Event.Tells (FirstOfOne least)) (c.runAhead (e.runPass fuel) w).2)
    (h : e.Reaches limit (.start number owner rootOnly root) w₀ turns pass w)
    (hn : number < w₀.ledger.passes) (hw : least ≤ w₀.ledger.passes) :
    w₀.Enters (Event.Tells fun n path position => FirstOfOne least n path position ∨
      n = number ∧ ∃ t ∈ turns, t.site.path = path ∧ t.site.position = position) w := by
  induction h with
  | start => exact .refl w₀
  | @turn turns pass w w' site queue fuel deed h hq hf hd ih =>
    have hnumber : ({ pass with queue } : Pass).number = number := h.number_eq
    have hstep : w.Enters (Event.Tells fun n path position => FirstOfOne least n path position ∨
        n = number ∧ ∃ t ∈ ⟨site, deed⟩ :: turns, t.site.path = path ∧ t.site.position = position)
        (e.step (e.runPass fuel) { pass with queue } site w).2 := by
      refine e.step_enters (Event.identified_tells _) (fun c u hu => ?_)
        (hnumber ▸ Nat.lt_of_lt_of_le hn ih.passes)
        (fun _ he => he.tells (Or.inr ⟨hnumber, _, List.mem_cons_self .., rfl, rfl⟩))
        (Nat.le_refl _)
      exact (hahead fuel hf c u (Nat.le_trans (Nat.le_trans hw ih.passes) hu)).mono
        fun _ ht => ht.mono fun _ _ _ => Or.inl
    rw [hd.step_eq] at hstep
    refine (ih.mono fun _ ht => ht.mono fun n path position => Or.imp id ?_).trans hstep
    rintro ⟨hn, t, ht, hplace⟩
    exact ⟨hn, t, List.mem_cons_of_mem _ ht, hplace⟩

/-- However a pass ends, its rules were told the slots of their records in the tree that the pass
has come to. -/
theorem runPass_tells (fuel number : Nat) (owner : Owner) (rootOnly : Bool) (root : Node)
    (hahead : ∀ k < fuel, ∀ (c : Context) (w : World σ), least ≤ w.ledger.passes →
      w.Enters (Event.Tells (FirstOfOne least)) (c.runAhead (e.runPass k) w).2)
    (hn : number < w₀.ledger.passes) (hw : least ≤ w₀.ledger.passes) :
    ∃ turns last w, e.Reaches fuel (.start number owner rootOnly root) w₀ turns last w ∧
      e.EndsAt fuel last w (e.runPass fuel (.start number owner rootOnly root) w₀) ∧
      w₀.Enters (Event.Tells (SlotOf number last.tree least))
        (e.runPass fuel (.start number owner rootOnly root) w₀).2 := by
  have hstart : e.Reaches fuel (.start number owner rootOnly root) w₀ [] _ w₀ := .start
  obtain ⟨turns, last, w, hr, hend⟩ := e.runPass_endsAt (Nat.le_refl fuel) hstart
  have hplaced := hr.placed
  have htells : w₀.Enters (Event.Tells (SlotOf number last.tree least)) w := by
    refine (hr.tells hahead hn hw).mono fun _ ht => ht.mono fun n path position => Or.imp id ?_
    rintro ⟨hn, t, ht, rfl, rfl⟩
    exact ⟨hn, hplaced.done t ht⟩
  refine ⟨turns, last, w, hr, hend, ?_⟩
  generalize e.runPass fuel (.start number owner rootOnly root) w₀ = result at hend
  cases hend with
  | done => exact htells
  | exhausted => exact htells
  | @stopped site queue k s w' hq hk hs =>
    -- the last step was cut off, but its site sits where its path leads
    have hsits := hplaced.queued site (hq ▸ List.mem_cons_self ..)
    have hnumber : ({ last with queue } : Pass).number = number := hr.number_eq
    have hstep : w.Enters (Event.Tells (SlotOf number last.tree least))
        (e.step (e.runPass k) { last with queue } site w).2 := by
      refine e.step_enters (Event.identified_tells _) (fun c u hu => ?_)
        (hnumber ▸ Nat.lt_of_lt_of_le hn htells.passes)
        (fun _ he => he.tells (Or.inr ⟨hnumber, hsits⟩)) (Nat.le_refl _)
      exact (hahead k hk c u (Nat.le_trans (Nat.le_trans hw htells.passes) hu)).mono
        fun _ ht => ht.mono fun _ _ _ => Or.inl
    rw [hs] at hstep
    exact htells.trans hstep

/-- While a record is run ahead, its rules are told that it is the first of one. -/
theorem runAhead_tells (e : Engine σ) (least fuel : Nat) (c : Context) (w : World σ)
    (hw : least ≤ w.ledger.passes) :
    w.Enters (Event.Tells (FirstOfOne least)) (c.runAhead (e.runPass fuel) w).2 := by
  have hbegin : w.Enters (Event.Tells (FirstOfOne least))
      { w with ledger := { w.ledger with passes := w.ledger.passes + 1 } } :=
    .quiet rfl (Nat.le_succ _)
  obtain ⟨turns, last, w₁, -, -, htells⟩ := runPass_tells fuel w.ledger.passes
    ⟨c.record.component, none⟩ true (.record c.record) (fun k _ => runAhead_tells e least k)
    (Nat.lt_succ_self _) (Nat.le_trans hw hbegin.passes)
  rw [Context.runAhead_world]
  refine hbegin.trans (htells.mono fun _ ht => ht.mono fun n path position h => ?_)
  rcases h with h | ⟨rfl, h⟩
  · exact h
  · exact ⟨hw, by rintro rfl; exact h.of_nil⟩

/-- What rules are told about the position of their record. In the pass over the whole tree it is
the slot of the record in the tree that the pass has come to, which is the answer if there is one.
In a pass for a record alone, the rules of the record are told that it is the first of one. -/
theorem expand_positions (e : Engine σ) (fuel : Nat) (nextKey : Key) (memory : σ) (root : Node) :
    ∃ turns last w, e.Reaches fuel (.start 0 {} false root)
        { nextKey, nextId := e.nextId, memory, ledger := { passes := 1 } } turns last w ∧
      (∀ tree, (e.expand fuel nextKey memory root).answer = .ok tree → last.tree = tree) ∧
      ∀ number path key rule position, .started number path key rule position ∈
          (e.expand fuel nextKey memory root).ledger.journal →
        (number = 0 → last.tree.Slot path position) ∧
          (path = [] → position = .listed 0 1) := by
  let w₀ : World σ := { nextKey, nextId := e.nextId, memory, ledger := { passes := 1 } }
  have hbegun : 1 ≤ w₀.ledger.passes := Nat.le_refl 1
  obtain ⟨turns, last, w, hr, hend, htells⟩ :=
    runPass_tells fuel 0 {} false root (fun k _ => e.runAhead_tells 1 k) hbegun hbegun
  rcases hx : e.runPass fuel (.start 0 {} false root)
    { nextKey, nextId := e.nextId, memory, ledger := { passes := 1 } } with ⟨x, w'⟩
  rw [hx] at hend htells
  obtain ⟨hanswer, hledger⟩ := expand_eq_runPass hx
  refine ⟨turns, last, w, hr, fun tree htree => ?_, fun number path key rule position hs => ?_⟩
  · rw [hanswer] at htree
    cases hend with
    | done => exact Except.ok.inj htree
    | exhausted => cases htree
    | stopped => cases htree
  · rw [hledger] at hs
    rcases htells.mem hs with hs | htold
    · cases hs
    rcases htold _ _ _ _ _ rfl with hfirst | ⟨hn, hslot⟩
    · exact ⟨fun hn => absurd hfirst.1 (by omega), hfirst.2⟩
    · exact ⟨fun _ => hslot, by rintro rfl; exact hslot.of_nil⟩

/-- An engine whose rule for boxes writes the position that it is told. -/
def positioning : Engine Unit :=
  (({} : Engine Unit).register [⟨"box", .none, none⟩] (.look fun c =>
    .write (.attr "position" (.text (toString c.position.ordinal))) (.done none))).1

/-- The same engine with a newer rule for boxes, which runs the other one ahead. -/
def delegating : Engine Unit :=
  (positioning.register [⟨"box", .none, none⟩] (.runAhead fun _ => .done none)).1

/-- Two boxes in a list: the second one is told that it is the second of two, but when a rule of its
own runs it ahead, it is told that it is the first of one. -/
theorem expand_positions_delegated :
    let boxes := Node.list [.record .box, .record { Record.box with key := 2 }]
    let alone := positioning.expand 5 3 () boxes
    let delegated := delegating.expand 5 3 () boxes
    .started 0 [.item 1] 2 0 (.listed 1 2) ∈ alone.ledger.journal ∧
      .started 0 [.item 1] 2 1 (.listed 1 2) ∈ delegated.ledger.journal ∧
      .started 2 [] 2 0 (.listed 0 1) ∈ delegated.ledger.journal ∧
      (alone.record? [.item 1]).bind (·.rendering.attrs.get? "position") = some (.text "2") ∧
      (delegated.record? [.item 1]).bind (·.rendering.attrs.get? "position") =
        some (.text "1") := by
  decide +kernel

end Engine

end ComponentTree
