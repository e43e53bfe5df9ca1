import ComponentTree.Proofs.Expansion.Comparison

/-!
Recording the trees that rules give.

To speak of what rules put into a tree, an engine can be made to record it: its rules do the same as
before, and note in their memory every tree that they write as content or answer with. Main
statement (`recording_expand`): apart from the notes nothing changes, neither the answer nor the
ledger.
-/

namespace ComponentTree

variable {σ α : Type}

namespace RuleM

/-- Notes a tree, and goes on. -/
def note (tree : Node) (next : RuleM (σ × List Node) α) : RuleM (σ × List Node) α :=
  .recall fun m => .remember (m.1, tree :: m.2) next

/-- The program with notes of the trees that it writes as content or answers with. -/
def recording : RuleM σ (Option Node) → RuleM (σ × List Node) (Option Node)
  | .done none => .done none
  | .done (some tree) => note tree (.done (some tree))
  | .fail e => .fail e
  | .look next => .look fun c => (next c).recording
  | .write (.content tree) next => note tree (.write (.content tree) next.recording)
  | .write x next => .write x next.recording
  | .generateId next => .generateId fun id => (next id).recording
  | .issue tree next => .issue tree fun t => (next t).recording
  | .runAhead next => .runAhead fun r => (next r).recording
  | .recall next => .recall fun m => (next m.1).recording
  | .remember memory next => .recall fun m => .remember (memory, m.2) next.recording

end RuleM

/-- The rulebook with all bodies recording. -/
def Rulebook.recording (b : Rulebook σ) : Rulebook (σ × List Node) where
  rules := b.rules.map fun rule => ⟨rule.selectors, rule.body.recording⟩
  bySelector := b.bySelector
  defaultVariants := b.defaultVariants

theorem Rulebook.recording_body? (b : Rulebook σ) (rule : RuleId) :
    b.recording.body? rule = (b.body? rule).map RuleM.recording := by
  simp [body?, recording, Function.comp_def]

/-- The engine with all its rules recording. -/
def Engine.recording (e : Engine σ) : Engine (σ × List Node) where
  rulebook := e.rulebook.recording
  options := e.options
  library := e.library
  nextId := e.nextId

/-- The world without the notes. -/
def World.forget (w : World (σ × List Node)) : World σ :=
  { nextKey := w.nextKey, nextId := w.nextId, memory := w.memory.1, ledger := w.ledger }

namespace Run

/-- `y` does what `x` does, apart from its notes. -/
def Forgets (x : Run σ α) (y : Run (σ × List Node) α) : Prop :=
  ∀ w : World (σ × List Node), x w.forget = ((y w).1, (y w).2.forget)

/-- Doing the same apart from notes, as a comparison. -/
def forgetting (σ : Type) : Comparison σ (σ × List Node) where
  rel := Forgets
  pure _ _ := rfl
  throw _ _ := rfl
  bind {α β x y f g} h hf w := by
    rw [bind_apply, bind_apply, h w]
    rcases y w with ⟨s | a, w'⟩
    · rfl
    · exact hf a w'
  attempt {α x y} h w := by
    rw [attempt_apply, attempt_apply, h w]
    rcases y w with ⟨(_ | _) | _, _⟩ <;> rfl
  log _ _ := rfl
  mark key rule w := by
    rw [mark_apply, mark_apply]
    change (if (key, rule) ∈ w.ledger.marks then _ else _) = _
    split <;> rfl
  beginPass _ := rfl
  fresh _ _ := rfl
  freshId _ _ := rfl

end Run

/-- A program that records does what the program does. -/
theorem RuleM.recording_exec {idPrefix : String} {run : Pass → Run σ Pass}
    {run' : Pass → Run (σ × List Node) Pass} (hrun : ∀ pass, (run pass).Forgets (run' pass))
    (body : RuleM σ (Option Node)) :
    ∀ c, (body.exec idPrefix run c).Forgets (body.recording.exec idPrefix run' c) := by
  induction body with
  | done answer => cases answer <;> exact fun c w => rfl
  | fail f => exact fun c w => rfl
  | look next ih => exact fun c => ih c c
  | write x next ih =>
    cases x with
    | content tree =>
      exact fun c w => ih (c.write (.content tree))
        { w with memory := (w.memory.1, tree :: w.memory.2) }
    | _ => exact fun c w => ih _ w
  | generateId next ih =>
    exact fun c => (Run.forgetting σ).bind ((Run.forgetting σ).freshId _) fun id => ih id c
  | issue tree next ih =>
    exact fun c => (Run.forgetting σ).bind ((Run.forgetting σ).fresh tree) fun t => ih t c
  | runAhead next ih =>
    intro c
    have ha : (c.runAhead run).Forgets (c.runAhead run') :=
      c.runAhead_congr (C := (Run.forgetting σ).congruence) hrun
    unfold RuleM.recording RuleM.exec
    refine (Run.forgetting σ).bind ((Run.forgetting σ).attempt ha) fun r => ?_
    cases r with
    | ok c' => exact ih (.ok ()) c'
    | error f => exact ih (.error f) c
  | «recall» next ih => exact fun c w => ih w.memory.1 c w
  | remember memory next ih => exact fun c w => ih c { w with memory := (memory, w.memory.2) }

namespace Engine

theorem alike_recording (e : Engine σ) : Alike (Run.forgetting σ) e e.recording :=
  e.alike_mapBodies (Run.forgetting σ) RuleM.recording fun body _ _ hrun =>
    body.recording_exec hrun

/-- An engine that records answers with the same and leaves the same ledger. -/
theorem recording_expand (e : Engine σ) (fuel : Nat) (nextKey : Key) (memory : σ) (root : Node) :
    (e.recording.expand fuel nextKey (memory, []) root).answer =
        (e.expand fuel nextKey memory root).answer ∧
      (e.recording.expand fuel nextKey (memory, []) root).ledger =
        (e.expand fuel nextKey memory root).ledger := by
  have hcut : ∀ pass, (Run.forgetting σ).rel (e.runPass 0 pass) (e.recording.runPass 0 pass) :=
    fun _ _ => rfl
  have h := e.alike_recording.parallel.expandIn hcut fuel root
    { nextKey, nextId := e.nextId, memory := (memory, []) }
  have hanswer := congrArg Prod.fst h
  have hworld := congrArg Prod.snd h
  exact ⟨hanswer.symm, (congrArg World.ledger hworld).symm⟩

end Engine

end ComponentTree
