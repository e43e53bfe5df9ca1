import ComponentTree.Proofs.Expansion.Comparison

/-!
Expansions with more steps.

A run goes on where another one stopped if it does the same, unless the steps of the other were used
up, and if it then has entered no less into the ledger (`Run.GoesOn`). A pass with more steps goes
on where one with fewer stopped (`runPass_goesOn`). So an expansion that is not cut off at some
number of steps is the same at every larger number; this is what it means that it ends
(`EndsWith`, `endsWith_of_answer`).
-/

namespace ComponentTree

variable {σ α β : Type}

namespace Run

/-- `y` does what `x` does, unless the steps of `x` are used up; and then it goes on from there. -/
structure GoesOn (x y : Run σ α) : Prop where
  same : ∀ w : World σ, (x w).1 = .error .exhausted ∨ y w = x w
  later : ∀ w : World σ, (x w).2.ledger.GrowsTo (y w).2.ledger
  grows : ∀ w : World σ, w.ledger.GrowsTo (y w).2.ledger

namespace GoesOn

theorem refl {x : Run σ α} (h : ∀ w : World σ, w.ledger.GrowsTo (x w).2.ledger) : GoesOn x x :=
  ⟨fun _ => Or.inr rfl, fun _ => .refl _, h⟩

theorem bind {x y : Run σ α} {f g : α → Run σ β} (h : GoesOn x y)
    (hf : ∀ a, GoesOn (f a) (g a)) : GoesOn (x >>= f) (y >>= g) := by
  have hg : ∀ w : World σ, (y w).2.ledger.GrowsTo ((y >>= g) w).2.ledger := by
    intro w
    rw [bind_apply]
    rcases y w with ⟨s | a, w'⟩
    · exact .refl _
    · exact (hf a).grows w'
  refine ⟨fun w => ?_, fun w => ?_, fun w => (h.grows w).trans (hg w)⟩
  · rw [bind_apply, bind_apply]
    rcases h.same w with hs | hs
    · rcases hx : x w with ⟨s | a, w'⟩ <;> rw [hx] at hs <;> cases hs
      exact Or.inl rfl
    · rw [hs]
      rcases x w with ⟨s | a, w'⟩
      · exact Or.inr rfl
      · exact (hf a).same w'
  · have hlater := (h.later w).trans (hg w)
    rcases h.same w with hs | hs
    · rw [bind_apply]
      rcases hx : x w with ⟨s | a, w'⟩ <;> rw [hx] at hs hlater <;> cases hs
      exact hlater
    · rw [bind_apply, bind_apply, hs]
      rcases x w with ⟨s | a, w'⟩
      · exact .refl _
      · exact (hf a).later w'

theorem attempt {x y : Run σ α} (h : GoesOn x y) : GoesOn (attempt x) (attempt y) := by
  refine ⟨fun w => ?_, fun w => ?_, fun w => ?_⟩
  · rw [attempt_apply, attempt_apply]
    rcases h.same w with hs | hs
    · rcases hx : x w with ⟨(_ | _) | a, w'⟩ <;> rw [hx] at hs <;> cases hs
      exact Or.inl rfl
    · rw [hs]
      exact Or.inr rfl
  · rw [attempt_world, attempt_world]
    exact h.later w
  · rw [attempt_world]
    exact h.grows w

end GoesOn

theorem mark_grows (key : Key) (rule : RuleId) (w : World σ) :
    w.ledger.GrowsTo ((mark key rule : Run σ Bool) w).2.ledger := by
  rw [mark_apply]
  split
  · exact .refl _
  · exact ⟨List.suffix_cons .., Nat.le_refl _, List.suffix_rfl⟩

/-- Going on, as a comparison. -/
def goingOn (σ : Type) : Comparison σ σ where
  rel := GoesOn
  pure _ := .refl fun _ => .refl _
  throw _ := .refl fun _ => .refl _
  bind := GoesOn.bind
  attempt := GoesOn.attempt
  log _ := .refl fun _ => ⟨List.suffix_rfl, Nat.le_refl _, List.suffix_cons ..⟩
  mark key rule := .refl (mark_grows key rule)
  beginPass := .refl fun _ => ⟨List.suffix_rfl, Nat.le_succ _, List.suffix_rfl⟩
  fresh _ := .refl fun _ => .refl _
  freshId _ := .refl fun _ => ⟨List.suffix_rfl, Nat.le_refl _, List.suffix_cons ..⟩

end Run

/-- A program goes on when the passes do that it asks for. -/
theorem RuleM.exec_goesOn {idPrefix : String} {run run' : Pass → Run σ Pass}
    (hrun : ∀ pass, (run pass).GoesOn (run' pass)) (body : RuleM σ α) :
    ∀ c, (body.exec idPrefix run c).GoesOn (body.exec idPrefix run' c) :=
  body.exec_congr (C := Run.goingOn σ) (.refl fun w => .refl w.ledger)
    (fun _ => .refl fun w => .refl w.ledger) hrun

/-- Why the expansion has no answer, if it has none. -/
def Expansion.stop? (x : Expansion σ) : Option Stop :=
  match x.answer with
  | .ok _ => none
  | .error s => some s

theorem Expansion.stop?_eq_some {x : Expansion σ} {s : Stop} (h : x.stop? = some s) :
    x.answer = .error s := by
  unfold stop? at h
  split at h
  · cases h
  · rename_i hs
    rw [hs, Option.some.inj h]

theorem Expansion.answer_eq_ok {x : Expansion σ} {tree : Node}
    (h : x.answer.toOption = some tree) : x.answer = .ok tree := by
  cases hx : x.answer with
  | error s => rw [hx] at h; cases h
  | ok t => rw [hx] at h; exact congrArg Except.ok (Option.some.inj h)

theorem Expansion.ne_exhausted {x : Expansion σ} (h : x.stop? ≠ some .exhausted) :
    x.answer ≠ .error .exhausted := by
  intro hx
  unfold stop? at h
  rw [hx] at h
  exact h rfl

namespace Engine

/-- With more steps in the passes, an engine goes on. -/
theorem alike_goingOn (e : Engine σ) : Alike (Run.goingOn σ) e e where
  options := rfl
  resolveOwner _ _ := rfl
  resolve _ _ _ := rfl
  bodies rule := by
    cases hb : e.rulebook.body? rule with
    | none => exact Or.inl ⟨hb, hb⟩
    | some body => exact Or.inr ⟨body, body, hb, hb, fun _ _ hrun _ _ => body.exec_goesOn hrun _⟩

variable {e : Engine σ}

/-- A pass whose steps are used up is gone on with by every pass. -/
theorem runPass_zero_goesOn (e : Engine σ) (fuel : Nat) (pass : Pass) :
    (e.runPass 0 pass).GoesOn (e.runPass fuel pass) :=
  ⟨fun _ => Or.inl rfl, fun w => (runPass_moves fuel pass w).grows,
    fun w => (runPass_moves fuel pass w).grows⟩

theorem runPass_goesOn {n m : Nat} (h : n ≤ m) (pass : Pass) :
    (e.runPass n pass).GoesOn (e.runPass m pass) := by
  obtain ⟨more, rfl⟩ := Nat.exists_eq_add_of_le h
  exact e.alike_goingOn.parallel.runPass (e.runPass_zero_goesOn more) n pass

theorem expandIn_goesOn {n m : Nat} (h : n ≤ m) (root : Node) :
    (e.expandIn n root).GoesOn (e.expandIn m root) := by
  obtain ⟨more, rfl⟩ := Nat.exists_eq_add_of_le h
  exact e.alike_goingOn.parallel.expandIn (e.runPass_zero_goesOn more) n root

variable {nextKey : Key} {memory : σ} {root : Node}

/-- An expansion is a pass over the whole tree. -/
theorem expand_of_runPass {fuel : Nat} {x : Except Stop Pass} {w : World σ}
    (h : e.runPass fuel (.start 0 {} false root)
      { nextKey, nextId := e.nextId, memory, ledger := { passes := 1 } } = (x, w)) :
    e.expand fuel nextKey memory root =
      ⟨x.map Pass.tree, { e with nextId := w.nextId }, w.nextKey, w.memory, w.ledger⟩ := by
  have hin : e.expandIn fuel root { nextKey, nextId := e.nextId, memory } =
      (x.map Pass.tree, w) := by
    unfold expandIn
    change (e.runPass fuel (.start 0 {} false root) >>= _) _ = _
    rw [Run.bind_apply, h]
    cases x <;> rfl
  unfold expand ExceptT.run
  rw [hin]

theorem expand_eq_runPass {fuel : Nat} {x : Except Stop Pass} {w : World σ}
    (h : e.runPass fuel (.start 0 {} false root)
      { nextKey, nextId := e.nextId, memory, ledger := { passes := 1 } } = (x, w)) :
    (e.expand fuel nextKey memory root).answer = x.map Pass.tree ∧
      (e.expand fuel nextKey memory root).ledger = w.ledger := by
  rw [expand_of_runPass h]
  exact ⟨rfl, rfl⟩

/-! ### Expansions that end -/

/-- An expansion that is not cut off is the same with more steps. -/
theorem expand_eq_of_le {n m : Nat} (h : n ≤ m)
    (ha : (e.expand n nextKey memory root).answer ≠ .error .exhausted) :
    e.expand m nextKey memory root = e.expand n nextKey memory root := by
  rcases (expandIn_goesOn (e := e) h root).same { nextKey, nextId := e.nextId, memory } with hs | hs
  · exact absurd hs ha
  · unfold expand ExceptT.run
    rw [hs]

/-- An expansion with more steps has entered no less into the ledger. -/
theorem expand_grows {n m : Nat} (h : n ≤ m) :
    (e.expand n nextKey memory root).ledger.GrowsTo (e.expand m nextKey memory root).ledger :=
  (expandIn_goesOn h root).later _

/-- The expansion ends, with an answer or a failure: with steps enough, `x` is its outcome. -/
def EndsWith (e : Engine σ) (nextKey : Key) (memory : σ) (root : Node) (x : Expansion σ) : Prop :=
  x.answer ≠ .error .exhausted ∧ ∃ n, ∀ fuel ≥ n, e.expand fuel nextKey memory root = x

theorem endsWith_of_answer {n : Nat}
    (ha : (e.expand n nextKey memory root).answer ≠ .error .exhausted) :
    e.EndsWith nextKey memory root (e.expand n nextKey memory root) :=
  ⟨ha, n, fun _ h => expand_eq_of_le h ha⟩

/-- An expansion ends with what its pass ends with, if the steps of the pass are not used up. -/
theorem endsWith_of_runPass {fuel : Nat} {y : Except Stop Pass} {w : World σ}
    (h : e.runPass fuel (.start 0 {} false root)
      { nextKey, nextId := e.nextId, memory, ledger := { passes := 1 } } = (y, w))
    (hy : y ≠ .error .exhausted) :
    ∃ x, e.EndsWith nextKey memory root x ∧ x.answer = y.map Pass.tree ∧ x.ledger = w.ledger := by
  obtain ⟨hanswer, hledger⟩ := expand_eq_runPass h
  refine ⟨_, endsWith_of_answer (n := fuel) ?_, hanswer, hledger⟩
  intro hx
  rw [hanswer] at hx
  cases y with
  | ok final => cases hx
  | error s => exact hy (congrArg Except.error (Except.error.inj hx))

/-- An expansion ends with one outcome only. -/
theorem EndsWith.unique {x y : Expansion σ} (hx : e.EndsWith nextKey memory root x)
    (hy : e.EndsWith nextKey memory root y) : x = y := by
  obtain ⟨-, n, hn⟩ := hx
  obtain ⟨-, m, hm⟩ := hy
  rw [← hn (max n m) (Nat.le_max_left n m), hm (max n m) (Nat.le_max_right n m)]

/-- What an expansion that ends has entered into the ledger at any time is in its ledger at the
end. -/
theorem EndsWith.grows {x : Expansion σ} (h : e.EndsWith nextKey memory root x) (fuel : Nat) :
    (e.expand fuel nextKey memory root).ledger.GrowsTo x.ledger := by
  obtain ⟨-, n, hn⟩ := h
  rw [← hn (max n fuel) (Nat.le_max_left n fuel)]
  exact expand_grows (Nat.le_max_right n fuel)

end Engine

end ComponentTree
