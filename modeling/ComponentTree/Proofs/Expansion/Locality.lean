import ComponentTree.Proofs.Expansion.Limits
import ComponentTree.Proofs.Expansion.Order
import ComponentTree.Proofs.Rule.Rulebook

/-!
Rules that no record is matched by.

One run does what another one does as long as nothing else is seen than certain events
(`Run.WhileSeeing`): since the journal only grows, what is seen on the way is still in it at the
end. If a rule is added to an engine, the records that come up are matched as before unless the rule
was registered for one of their selectors, and which selectors these are stands in the journal. Main
statement (`expand_register`): an expansion in which no record comes up for whose selectors the
rule was registered has the same outcome with the rule and without it, in all its passes, whether it
has an answer, fails, or is cut off.
-/

namespace ComponentTree

variable {σ α β : Type}

/-! ### Runs that are the same as long as nothing else is seen -/

namespace Run

/-- `y` does what `x` does if all that `x` leaves in the journal is among the events `Seen`. -/
structure WhileSeeing (Seen : Event → Prop) (x y : Run σ α) : Prop where
  same : ∀ w : World σ, (∀ event ∈ (x w).2.ledger.journal, Seen event) → y w = x w
  grows : ∀ w : World σ, w.ledger.journal <:+ (x w).2.ledger.journal

namespace WhileSeeing

variable {Seen : Event → Prop}

theorem refl {x : Run σ α} (h : ∀ w : World σ, w.ledger.journal <:+ (x w).2.ledger.journal) :
    WhileSeeing Seen x x :=
  ⟨fun _ _ => rfl, h⟩

theorem bind {x y : Run σ α} {f g : α → Run σ β} (h : WhileSeeing Seen x y)
    (hf : ∀ a, WhileSeeing Seen (f a) (g a)) : WhileSeeing Seen (x >>= f) (y >>= g) := by
  constructor
  · intro w hseen
    have hsame := h.same w
    rw [bind_apply] at hseen
    rw [bind_apply, bind_apply]
    rcases hx : x w with ⟨s | a, w'⟩ <;> rw [hx] at hseen hsame
    · rw [hsame hseen]
    · -- what was seen up to the middle is in the journal at the end
      rw [hsame fun event he => hseen event (((hf a).grows w').subset he)]
      exact (hf a).same w' hseen
  · intro w
    have hgrows := h.grows w
    rw [bind_apply]
    rcases hx : x w with ⟨s | a, w'⟩ <;> rw [hx] at hgrows
    · exact hgrows
    · exact hgrows.trans ((hf a).grows w')

theorem attempt {x y : Run σ α} (h : WhileSeeing Seen x y) :
    WhileSeeing Seen (attempt x) (attempt y) := by
  constructor
  · intro w hseen
    rw [attempt_world] at hseen
    rw [attempt_apply, attempt_apply, h.same w hseen]
  · intro w
    rw [attempt_world]
    exact h.grows w

end WhileSeeing

/-- Doing the same as long as nothing else is seen, as a comparison. -/
def whileSeeing (σ : Type) (Seen : Event → Prop) : Comparison σ σ where
  rel := WhileSeeing Seen
  pure _ := .refl fun _ => List.suffix_rfl
  throw _ := .refl fun _ => List.suffix_rfl
  bind := WhileSeeing.bind
  attempt := WhileSeeing.attempt
  log _ := .refl fun _ => List.suffix_cons ..
  mark key rule := .refl fun w => (mark_grows key rule w).journal
  beginPass := .refl fun _ => List.suffix_rfl
  fresh _ := .refl fun _ => List.suffix_rfl
  freshId _ := .refl fun _ => List.suffix_cons ..

/-- After an event has been seen, runs have to be compared only if it is among those that may be
seen. -/
theorem WhileSeeing.log_bind {Seen : Event → Prop} {event : Event} {x y : Run σ α}
    (h : WhileSeeing Seen x x) (hxy : Seen event → WhileSeeing Seen x y) :
    WhileSeeing Seen (log event >>= fun _ => x) (log event >>= fun _ => y) := by
  constructor
  · intro w hseen
    have hevent : event ∈ (x (w.log event)).2.ledger.journal :=
      (h.grows _).subset (List.mem_cons_self ..)
    exact (hxy (hseen event hevent)).same (w.log event) hseen
  · exact fun w => (List.suffix_cons ..).trans (h.grows (w.log event))

end Run

/-! ### A rule that is added -/

/-- If the event is that a record came up, none of the record's selectors is among these. -/
def Event.Misses (selectors : List Selector) : Event → Prop
  | .visited _ _ _ component variant part =>
    ∀ s ∈ Selector.forRecord component variant part, s ∉ selectors
  | _ => True

instance (selectors : List Selector) : DecidablePred (Event.Misses selectors)
  | .visited _ _ _ component variant part =>
    inferInstanceAs (Decidable (∀ s ∈ Selector.forRecord component variant part, s ∉ selectors))
  | .started .. | .replaced .. | .identified _ => inferInstanceAs (Decidable True)

namespace Engine

variable {e : Engine σ} {selectors : List Selector} {Seen : Event → Prop}
  {run run' : Pass → Run σ Pass}

/-- A program does the same as long as the passes do that it asks for. -/
theorem exec_whileSeeing (hrun : ∀ pass, (run pass).WhileSeeing Seen (run' pass))
    (idPrefix : String) (body : RuleM σ α) (c : Context) :
    (body.exec idPrefix run c).WhileSeeing Seen (body.exec idPrefix run' c) :=
  body.exec_congr (C := Run.whileSeeing σ Seen) (.refl fun _ => List.suffix_rfl)
    (fun _ => .refl fun _ => List.suffix_rfl) hrun c

/-- An added rule leaves the other rules alone. -/
theorem ruleAlike_register (body : RuleM σ (Option Node)) {rule : RuleId}
    (hrule : rule ≠ e.rulebook.rules.length) :
    RuleAlike (Run.whileSeeing σ Seen).congruence e (e.register selectors body).1 rule := by
  have hbody : (e.register selectors body).1.rulebook.body? rule = e.rulebook.body? rule :=
    (e.rulebook.body?_register selectors body rule).trans (if_neg hrule)
  cases hb : e.rulebook.body? rule with
  | none => exact Or.inl ⟨hb, hbody.trans hb⟩
  | some body' =>
    exact Or.inr ⟨body', body', hb, hbody.trans hb, fun _ _ hrun _ _ => exec_whileSeeing hrun _ _ _⟩

/-- An engine matches its records like itself. -/
theorem matchesAlike_self (e : Engine σ) (component : String) (variant part : Option String) :
    MatchesAlike (Run.whileSeeing σ Seen).congruence e e component variant part := by
  refine ⟨rfl, fun _ _ _ rule _ => ?_⟩
  cases hb : e.rulebook.body? rule with
  | none => exact Or.inl ⟨hb, hb⟩
  | some body =>
    exact Or.inr ⟨body, body, hb, hb, fun _ _ hrun _ _ => exec_whileSeeing hrun _ _ _⟩

/-- A record is matched alike if an added rule was registered for none of its selectors. -/
theorem matchesAlike_register (hb : e.rulebook.Built) (body : RuleM σ (Option Node))
    {component : String} {variant part : Option String}
    (h : ∀ s ∈ Selector.forRecord component variant part, s ∉ selectors) :
    MatchesAlike (Run.whileSeeing σ Seen).congruence e (e.register selectors body).1
      component variant part where
  resolve := (e.rulebook.resolve_register_of_notMem body h).symm
  rules _ _ hres rule hrule := ruleAlike_register body (hb.ne_of_resolve hres rule hrule)

/-- Visits are the same as long as the records that come up are missed by the added rule. -/
theorem parallel_register (hb : e.rulebook.Built) (selectors : List Selector)
    (body : RuleM σ (Option Node)) :
    Parallel (Run.whileSeeing σ (Event.Misses selectors)).congruence e
      (e.register selectors body).1 where
  visit {run run'} hrun pass site record := by
    have hself : ∀ pass, (run pass).WhileSeeing (Event.Misses selectors) (run pass) :=
      fun pass => .refl (hrun pass).grows
    have hguard : GuardAlike (Run.whileSeeing σ (Event.Misses selectors)).congruence e e :=
      .of_options rfl
    have hguard' : GuardAlike (Run.whileSeeing σ (Event.Misses selectors)).congruence e
        (e.register selectors body).1 := .of_options rfl
    rcases hr : e.resolveOwner record site.owner with ⟨r, owner⟩
    have hr' : (e.register selectors body).1.resolveOwner record site.owner = (r, owner) := hr
    rw [visit_eq hr, visit_eq hr']
    cases r.component with
    | none => exact (Run.whileSeeing σ _).pure _
    | some component =>
      refine Run.WhileSeeing.log_bind ?_ fun hmisses => ?_
      · exact Parallel.treat hguard hself pass site.count (e.matchesAlike_self ..)
      · exact Parallel.treat hguard' hrun pass site.count
          (matchesAlike_register hb body hmisses)

/-- If the records that come up in an expansion have no selector among those for which a rule is
added, be it in the outer pass or in one that a rule asks for, then the added rule changes nothing:
not the answer or the failure, not the rules that start and their order, not the identifiers, not
the memory. The same goes for an expansion that is cut off at any number of steps. -/
theorem expand_register (hb : e.rulebook.Built) (selectors : List Selector)
    (body : RuleM σ (Option Node)) {fuel : Nat} {nextKey : Key} {memory : σ} {root : Node}
    (h : ∀ event ∈ (e.expand fuel nextKey memory root).ledger.journal, event.Misses selectors) :
    (e.expand fuel nextKey memory root).SameAs
      ((e.register selectors body).1.expand fuel nextKey memory root) := by
  have hcut : ∀ pass, (e.runPass 0 pass).WhileSeeing (Event.Misses selectors)
      ((e.register selectors body).1.runPass 0 pass) := fun _ => (Run.whileSeeing σ _).throw _
  have hrun := (parallel_register hb selectors body).expandIn hcut fuel root
  have heq := (hrun.same { nextKey, nextId := e.nextId, memory } h).symm
  have hworld := congrArg Prod.snd heq
  exact ⟨congrArg Prod.fst heq, congrArg World.ledger hworld, congrArg World.nextKey hworld,
    congrArg World.nextId hworld, congrArg World.memory hworld⟩

/-- A rule for wide boxes and for everything of a lid, which would fail, is not met by a box of
which one rule has another run ahead. -/
theorem expand_register_layered :
    let selectors : List Selector := [⟨"box", .exact "wide", none⟩, ⟨"lid", .any, none⟩]
    let x := layered.expand 5 3 () (.record .box)
    layered.rulebook.Built ∧ (∀ event ∈ x.ledger.journal, event.Misses selectors) ∧
      x.SameAs ((layered.register selectors (.fail (.rule "box" "too wide"))).1.expand 5 3 ()
        (.record .box)) := by
  intro selectors x
  have hb : layered.rulebook.Built := .register (.register (.register .empty _ _) _ _) _ _
  have hmisses : ∀ event ∈ x.ledger.journal, event.Misses selectors := by decide +kernel
  exact ⟨hb, hmisses, expand_register hb selectors _ hmisses⟩

end Engine

end ComponentTree
