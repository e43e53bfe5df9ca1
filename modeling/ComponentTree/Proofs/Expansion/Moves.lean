import ComponentTree.Expansion
import Mathlib.Logic.Relation

/-!
What a run does to the world.

Whatever rules do, a run changes the world only by a handful of moves: it enters an event, gives out
an identifier or identities, begins a pass, changes the memory, or marks a rule on a record and
starts it. It marks a rule only when the rule is due: a record of the identity has come up, and the
rules in front of this one are marked on it already. Main statement: a relation of worlds that holds
across every such move holds across programs, rules, steps and whole passes (`Admits.runPass`). So
passes make nothing but moves (`runPass_moves`), and what every move keeps is kept by every run
(`Moves.keeps`).
-/

namespace ComponentTree

variable {σ α β : Type}

/-! ### Runs as functions of the world -/

namespace Run

theorem bind_apply (x : Run σ α) (f : α → Run σ β) (w : World σ) :
    (x >>= f) w = match x w with
      | (.ok a, w) => f a w
      | (.error s, w) => (.error s, w) := by
  change ExceptT.bindCont (m := StateM (World σ)) f (x w).1 (x w).2 = _
  rcases x w with ⟨_ | _, _⟩ <;> rfl

theorem get_apply (w : World σ) : (get : Run σ (World σ)) w = (.ok w, w) := rfl

/-- A run with an answer has an answer to its first half, and goes on from there. -/
theorem bind_eq_ok {x : Run σ α} {f : α → Run σ β} {w w'' : World σ} {b : β}
    (h : (x >>= f) w = (.ok b, w'')) : ∃ a w', x w = (.ok a, w') ∧ f a w' = (.ok b, w'') := by
  rw [bind_apply] at h
  rcases hx : x w with ⟨s | a, w'⟩ <;> rw [hx] at h
  · cases h
  · exact ⟨a, w', rfl, h⟩

theorem pure_eq_ok {a b : α} {w w' : World σ} (h : (pure a : Run σ α) w = (.ok b, w')) :
    a = b ∧ w = w' := by
  cases h
  exact ⟨rfl, rfl⟩

end Run

namespace World

/-- The world with one more event in the journal. -/
def log (w : World σ) (event : Event) : World σ :=
  { w with ledger := { w.ledger with journal := event :: w.ledger.journal } }

/-- The world with a rule marked on a record. -/
def mark (w : World σ) (key : Key) (rule : RuleId) : World σ :=
  { w with ledger := { w.ledger with marks := (key, rule) :: w.ledger.marks } }

@[simp] theorem log_marks (w : World σ) (event : Event) :
    (w.log event).ledger.marks = w.ledger.marks := rfl

@[simp] theorem log_journal (w : World σ) (event : Event) :
    (w.log event).ledger.journal = event :: w.ledger.journal := rfl

@[simp] theorem mark_marks (w : World σ) (key : Key) (rule : RuleId) :
    (w.mark key rule).ledger.marks = (key, rule) :: w.ledger.marks := rfl

end World

namespace Run

theorem log_apply (event : Event) (w : World σ) :
    (log event : Run σ Unit) w = (.ok (), w.log event) := rfl

theorem mark_apply (key : Key) (rule : RuleId) (w : World σ) :
    (mark key rule : Run σ Bool) w =
      if (key, rule) ∈ w.ledger.marks then (.ok false, w) else (.ok true, w.mark key rule) := by
  unfold mark
  rw [bind_apply, get_apply]
  simp only [List.contains_iff_mem]
  split <;> rfl

theorem attempt_apply (x : Run σ α) (w : World σ) :
    attempt x w = match x w with
      | (.ok a, w) => (.ok (.ok a), w)
      | (.error (.failed e), w) => (.ok (.error e), w)
      | (.error .exhausted, w) => (.error .exhausted, w) := rfl

theorem attempt_world (x : Run σ α) (w : World σ) : (attempt x w).2 = (x w).2 := by
  rw [attempt_apply]
  rcases x w with ⟨(_ | _) | _, _⟩ <;> rfl

/-- An attempt with an answer hands over an answer or a failure of what was attempted. -/
theorem attempt_eq_ok {x : Run σ α} {w w' : World σ} {r : Except Failure α}
    (h : attempt x w = (.ok r, w')) :
    (∃ a, r = .ok a ∧ x w = (.ok a, w')) ∨ ∃ e, r = .error e ∧ x w = (.error (.failed e), w') := by
  rw [attempt_apply] at h
  rcases hx : x w with ⟨(e | _) | a, w₁⟩ <;> rw [hx] at h <;> cases h
  · exact Or.inr ⟨e, rfl, rfl⟩
  · exact Or.inl ⟨a, rfl, rfl⟩

end Run

/-! ### Moves -/

namespace World

/-- One change that a run makes to the world. A rule is marked only where it was not marked yet, and
it starts as it is marked, if it has a body. -/
inductive Move (e : Engine σ) (w : World σ) : World σ → Prop
  | visit (pass : Nat) (path : Path) (key : Key) (component : String)
      (variant part : Option String) :
      Move e w (w.log (.visited pass path key component variant part))
  | start (pass : Nat) (path : Path) (key : Key) (rule : RuleId) (position : Position)
      (hm : (key, rule) ∉ w.ledger.marks) (hb : (e.rulebook.body? rule).isSome) :
      Move e w ((w.mark key rule).log (.started pass path key rule position))
  | skip (key : Key) (rule : RuleId)
      (hm : (key, rule) ∉ w.ledger.marks) (hb : e.rulebook.body? rule = none) :
      Move e w (w.mark key rule)
  | replace (pass : Nat) (path : Path) (key : Key) (rule : RuleId) :
      Move e w (w.log (.replaced pass path key rule))
  | identify : Move e w (World.log { w with nextId := w.nextId + 1 }
      (.identified (e.options.idPrefix ++ toString w.nextId.toNat)))
  | issue (tree : Node) : Move e w { w with nextKey := (tree.reissue w.nextKey).2 }
  | beginPass : Move e w { w with ledger := { w.ledger with passes := w.ledger.passes + 1 } }
  | remember (memory : σ) : Move e w { w with memory }

/-- Any number of changes that a run makes. -/
abbrev Moves (e : Engine σ) : World σ → World σ → Prop := Relation.ReflTransGen (Move e)

variable {e : Engine σ}

/-- What every move keeps, any number of moves keeps. -/
theorem Moves.keeps {P : World σ → Prop} {w w' : World σ} (h : Moves e w w')
    (step : ∀ u v, Move e u v → P u → P v) (hw : P w) : P w' := by
  induction h with
  | refl => exact hw
  | tail _ hm ih => exact step _ _ hm ih

end World

/-! ### What a ledger only gains -/

/-- The ledger `l'` has all that `l` had, and what is new came later. -/
structure Ledger.GrowsTo (l l' : Ledger) : Prop where
  marks : l.marks <:+ l'.marks
  passes : l.passes ≤ l'.passes
  journal : l.journal <:+ l'.journal

namespace Ledger

theorem GrowsTo.refl (l : Ledger) : l.GrowsTo l :=
  ⟨List.suffix_rfl, Nat.le_refl _, List.suffix_rfl⟩

theorem GrowsTo.trans {l l' l'' : Ledger} (h : l.GrowsTo l') (h' : l'.GrowsTo l'') :
    l.GrowsTo l'' :=
  ⟨h.marks.trans h'.marks, Nat.le_trans h.passes h'.passes, h.journal.trans h'.journal⟩

/-- A record of this identity has come up, and of the rules that it was matched by then, those in
front of `rule` are marked on it. -/
def Due (e : Engine σ) (l : Ledger) (key : Key) (rule : RuleId) : Prop :=
  ∃ pass path component variant part s front back,
    Event.visited pass path key component variant part ∈ l.journal ∧
      e.rulebook.resolve component variant part = some (s, front ++ rule :: back) ∧
        ∀ x ∈ front, (key, x) ∈ l.marks

end Ledger

namespace World

variable {e : Engine σ}

theorem Move.grows {w w' : World σ} (h : Move e w w') : w.ledger.GrowsTo w'.ledger := by
  cases h with
  | visit => exact ⟨List.suffix_rfl, Nat.le_refl _, List.suffix_cons ..⟩
  | start => exact ⟨List.suffix_cons .., Nat.le_refl _, List.suffix_cons ..⟩
  | skip => exact ⟨List.suffix_cons .., Nat.le_refl _, List.suffix_rfl⟩
  | replace => exact ⟨List.suffix_rfl, Nat.le_refl _, List.suffix_cons ..⟩
  | identify => exact ⟨List.suffix_rfl, Nat.le_refl _, List.suffix_cons ..⟩
  | issue => exact .refl _
  | beginPass => exact ⟨List.suffix_rfl, Nat.le_succ _, List.suffix_rfl⟩
  | remember => exact .refl _

theorem Moves.grows {w w' : World σ} (h : Moves e w w') : w.ledger.GrowsTo w'.ledger :=
  h.keeps (P := fun u => w.ledger.GrowsTo u.ledger) (fun _ _ hm hu => hu.trans hm.grows) (.refl _)

/-- No mark is ever taken back. -/
theorem Moves.marks_mono {w w' : World σ} (h : Moves e w w') {x : Key × RuleId}
    (hx : x ∈ w.ledger.marks) : x ∈ w'.ledger.marks :=
  h.grows.marks.subset hx

end World

/-! ### Runs make moves -/

open World

/-- The relation holds across every move in which only rules that are due get marked, and across any
number of them. -/
structure Engine.Admits (e : Engine σ) (R : World σ → World σ → Prop) : Prop where
  refl : ∀ w, R w w
  trans : ∀ {u v w}, R u v → R v w → R u w
  grows : ∀ {w w'}, R w w' → w.ledger.GrowsTo w'.ledger
  move : ∀ {w w'}, Move e w w' →
    (∀ x ∈ w'.ledger.marks, x ∈ w.ledger.marks ∨ w.ledger.Due e x.1 x.2) → R w w'

variable {e : Engine σ} {R : World σ → World σ → Prop}

theorem Engine.admits_moves (e : Engine σ) : e.Admits (Moves e) where
  refl _ := .refl
  trans := .trans
  grows := Moves.grows
  move hm _ := .single hm

/-- A move that marks nothing. -/
theorem Engine.Admits.unmarked (hR : e.Admits R) {w w' : World σ} (hm : Move e w w')
    (h : w'.ledger.marks = w.ledger.marks) : R w w' :=
  hR.move hm fun _ hx => Or.inl (h ▸ hx)

theorem Engine.Admits.bind (hR : e.Admits R) {x : Run σ α} {f : α → Run σ β} {w : World σ}
    (hx : R w (x w).2) (hf : ∀ a w', x w = (.ok a, w') → R w' (f a w').2) :
    R w ((x >>= f) w).2 := by
  rw [Run.bind_apply]
  rcases h : x w with ⟨s | a, w'⟩ <;> rw [h] at hx
  · exact hx
  · exact hR.trans hx (hf a w' h)

variable {run : Pass → Run σ Pass}

theorem Engine.Admits.runAhead (hR : e.Admits R) (hrun : ∀ pass w, R w (run pass w).2)
    (c : Context) (w : World σ) : R w (c.runAhead run w).2 := by
  unfold Context.runAhead
  refine hR.bind (hR.unmarked .beginPass rfl) fun number w₁ _ => ?_
  exact hR.bind (hrun _ _) fun _ _ _ => hR.refl _

theorem Engine.Admits.exec (hR : e.Admits R) (hrun : ∀ pass w, R w (run pass w).2)
    (body : RuleM σ α) :
    ∀ (c : Context) (w : World σ), R w (body.exec e.options.idPrefix run c w).2 := by
  induction body with
  | done a => exact fun _ w => hR.refl w
  | fail s => exact fun _ w => hR.refl w
  | look next ih => exact fun c => ih c c
  | write x next ih => exact fun c => ih (c.write x)
  | generateId next ih =>
    intro c w
    unfold RuleM.exec
    exact hR.bind (hR.unmarked .identify rfl) fun id w' _ => ih id c w'
  | issue tree next ih =>
    intro c w
    unfold RuleM.exec
    exact hR.bind (hR.unmarked (.issue tree) rfl) fun tree w' _ => ih tree c w'
  | runAhead next ih =>
    intro c w
    unfold RuleM.exec
    refine hR.bind ?_ fun r w' _ => ?_
    · rw [Run.attempt_world]
      exact hR.runAhead hrun c w
    · cases r with
      | ok c' => exact ih (.ok ()) c' w'
      | error f => exact ih (.error f) c w'
  | «recall» next ih =>
    intro c w
    unfold RuleM.exec
    exact hR.bind (hR.refl w) fun w₁ w' _ => ih w₁.memory c w'
  | remember memory next ih =>
    intro c w
    unfold RuleM.exec
    exact hR.bind (hR.unmarked (.remember memory) rfl) fun _ w' _ => ih c w'

namespace Engine.Admits

/-- Rules on a record that has come up: of all the rules that it is matched by, the ones in `front`
have had their turn. -/
theorem runRules (hR : e.Admits R) (hrun : ∀ pass w, R w (run pass w).2) (pass : Nat)
    (site : Site) (key : Key) {component : String} {variant part : Option String} {s : Selector}
    {n : Nat} {path : Path} : ∀ (front rules : List RuleId) (record : Record) (w : World σ),
      e.rulebook.resolve component variant part = some (s, front ++ rules) →
      Event.visited n path key component variant part ∈ w.ledger.journal →
      (∀ x ∈ front, (key, x) ∈ w.ledger.marks) →
      R w (e.runRules run pass site key rules record w).2
  | _, [], _, w, _, _, _ => hR.refl w
  | front, rule :: rest, record, w, hres, hv, hfront => by
    have hdue : w.ledger.Due e key rule :=
      ⟨n, path, component, variant, part, s, front, rest, hv, hres, hfront⟩
    have marked : ∀ x ∈ (w.mark key rule).ledger.marks,
        x ∈ w.ledger.marks ∨ w.ledger.Due e x.1 x.2 := fun x hx =>
      (List.mem_cons.mp hx).elim (fun h => Or.inr (h ▸ hdue)) Or.inl
    -- the rest of the rules, in a world to which this one has led
    have next : ∀ r {w' : World σ}, w.ledger.GrowsTo w'.ledger → (key, rule) ∈ w'.ledger.marks →
        R w' (e.runRules run pass site key rest r w').2 := by
      intro r w' hg hm
      refine runRules hR hrun pass site key (s := s) (front ++ [rule]) rest r w' ?_
        (hg.journal.subset hv) fun x hx => ?_
      · rw [hres, List.append_assoc]
        rfl
      · rcases List.mem_append.mp hx with hx | hx
        · exact hg.marks.subset (hfront x hx)
        · rw [List.mem_singleton.mp hx]
          exact hm
    unfold Engine.runRules
    rw [Run.bind_apply, Run.mark_apply]
    by_cases hm : (key, rule) ∈ w.ledger.marks
    · simpa [hm] using next record (.refl _) hm
    · simp only [hm, if_false, if_true]
      cases hb : e.rulebook.body? rule with
      | none =>
        have hs : R w (w.mark key rule) := hR.move (.skip key rule hm hb) marked
        exact hR.trans hs (next record (hR.grows hs) (List.mem_cons_self ..))
      | some body =>
        -- the mark and the start of the rule make up one move
        have hs : R w
            ((w.mark key rule).log (.started pass site.path key rule site.position)) :=
          hR.move (.start pass site.path key rule site.position hm (by rw [hb]; rfl)) marked
        dsimp only
        rw [Run.bind_apply, Run.log_apply]
        have hx : R _ (e.runBody run body site.position record
            ((w.mark key rule).log (.started pass site.path key rule site.position))).2 :=
          hR.exec hrun body _ _
        refine hR.trans hs (hR.bind hx fun x w' h => ?_)
        rw [h] at hx
        obtain ⟨answer, c⟩ := x
        cases hr : replacement? answer with
        | some tree =>
          dsimp only
          exact hR.bind (hR.unmarked (.replace pass site.path key rule) rfl) fun _ w'' _ =>
            hR.refl w''
        | none =>
          dsimp only
          split
          · exact hR.refl w'
          · exact next c.record ((hR.grows hs).trans (hR.grows hx))
              ((hR.grows hx).marks.subset (List.mem_cons_self ..))

theorem visit (hR : e.Admits R) (hrun : ∀ pass w, R w (run pass w).2) (pass : Pass) (site : Site)
    (record : Record) (w : World σ) : R w (e.visit run pass site record w).2 := by
  unfold Engine.visit
  rcases e.resolveOwner record site.owner with ⟨r, owner⟩
  cases hc : r.component with
  | none => simp only [hc]; exact hR.refl w
  | some component =>
    simp only [hc]
    refine hR.bind (hR.unmarked (.visit ..) rfl) fun _ w' hw => ?_
    split
    · exact hR.refl w'
    · split
      · exact hR.refl w'
      · refine hR.bind ?_ fun verdict w'' _ => ?_
        · unfold applyRules
          rcases hres : e.rulebook.resolve component owner.variant r.part with _ | ⟨s, rules⟩
          · exact hR.refl w'
          · cases hw
            exact hR.runRules hrun _ _ _ [] rules r _ hres (List.mem_cons_self ..)
              fun _ hx => by cases hx
        · cases verdict <;> exact hR.refl w''

theorem step (hR : e.Admits R) (hrun : ∀ pass w, R w (run pass w).2) (pass : Pass) (site : Site)
    (w : World σ) : R w (e.step run pass site w).2 := by
  unfold Engine.step
  rcases pass.tree.at? site.path with _ | node
  · exact hR.refl w
  · cases node with
    | record r => exact hR.visit hrun pass site r w
    | _ => exact hR.refl w

/-- A pass, with all passes that its rules ask for, makes nothing but moves that mark rules which
are due. -/
theorem runPass (hR : e.Admits R) : ∀ (fuel : Nat) (pass : Pass) (w : World σ),
    R w (e.runPass fuel pass w).2
  | 0, _, w => hR.refl w
  | fuel + 1, pass, w => by
    unfold Engine.runPass
    cases pass.queue with
    | nil => exact hR.refl w
    | cons site queue =>
      exact hR.bind (hR.step (runPass hR fuel) _ site w)
        fun pass' w' _ => runPass hR fuel pass' w'

/-- The relation leads from the world at the begin of an expansion to the one at its end. -/
theorem expandIn (hR : e.Admits R) (fuel : Nat) (root : Node) (w : World σ) :
    R w (e.expandIn fuel root w).2 := by
  unfold Engine.expandIn
  refine hR.bind (hR.unmarked .beginPass rfl) fun number w _ => ?_
  exact hR.bind (hR.runPass fuel _ _) fun _ w' _ => hR.refl w'

/-- The relation leads from the empty ledger to the one at the end of an expansion. -/
theorem expand (hR : e.Admits R) (fuel : Nat) (nextKey : Key) (memory : σ) (root : Node) :
    ∃ w : World σ, R { nextKey, nextId := e.nextId, memory } w ∧
      (e.expand fuel nextKey memory root).ledger = w.ledger :=
  ⟨_, hR.expandIn fuel root _, rfl⟩

end Engine.Admits

theorem Context.runAhead_moves (hrun : ∀ pass w, Moves e w (run pass w).2) (c : Context)
    (w : World σ) : Moves e w (c.runAhead run w).2 :=
  e.admits_moves.runAhead hrun c w

namespace Engine

theorem step_moves (hrun : ∀ pass w, Moves e w (run pass w).2) (pass : Pass) (site : Site)
    (w : World σ) : Moves e w (e.step run pass site w).2 :=
  e.admits_moves.step hrun pass site w

theorem runPass_moves (fuel : Nat) (pass : Pass) (w : World σ) :
    Moves e w (e.runPass fuel pass w).2 :=
  e.admits_moves.runPass fuel pass w

/-- An expansion starts from an empty ledger and makes nothing but moves. -/
theorem expand_moves (e : Engine σ) (fuel : Nat) (nextKey : Key) (memory : σ) (root : Node) :
    ∃ w : World σ, Moves e { nextKey, nextId := e.nextId, memory } w ∧
      (e.expand fuel nextKey memory root).ledger = w.ledger :=
  e.admits_moves.expand fuel nextKey memory root

end Engine

end ComponentTree
