import ComponentTree.Proofs.Expansion.Moves

/-!
Two expansions side by side.

A congruence relates runs in a way that goes along with how an expansion is put together. If visits
of two engines are related, so are steps and whole passes (`Parallel`). Visits are related if the
engines settle owners alike, if the second refuses no place that the first lets through, and if
records are matched alike, by rules whose bodies are related whenever the passes are that they ask
for (`Parallel.of_matchesAlike`). Main statement: `Parallel.runPass`, in which the second engine may
have more steps than the first. A comparison goes along with handing over failures, too, and so with
whole programs (`RuleM.exec_congr`); engines that it relates have the same options (`Alike`).
-/

namespace ComponentTree

variable {σ τ α β : Type}

/-- A guard that is off refuses nothing. -/
theorem Options.refuses_of_off {options : Options} (h : options.divergenceGuard = false)
    (count : Nat) : options.refuses count = false := by
  rw [refuses, h, Bool.false_and]

/-- The guard refuses nothing up to its limit. -/
theorem Options.refuses_of_le {options : Options} {count : Nat}
    (h : count ≤ options.divergenceLimit.toNat) : options.refuses count = false := by
  rw [refuses, decide_eq_false (Nat.not_lt.mpr h), Bool.and_false]

/-- A relation of runs that carries over to what an expansion puts together. Nothing is asked of
runs that hand over their failure. -/
structure Run.Congruence (σ τ : Type) where
  rel : {α : Type} → Run σ α → Run τ α → Prop
  pure : ∀ {α : Type} (a : α), rel (pure a) (pure a)
  bind : ∀ {α β : Type} {x : Run σ α} {y : Run τ α} {f : α → Run σ β} {g : α → Run τ β},
    rel x y → (∀ a, rel (f a) (g a)) → rel (x >>= f) (y >>= g)
  log : ∀ event, rel (log event) (log event)
  mark : ∀ key rule, rel (mark key rule) (mark key rule)
  beginPass : rel beginPass beginPass

/-- A relation of runs that holds of parts alike and carries over to what they are put together
to. -/
structure Run.Comparison (σ τ : Type) where
  rel : {α : Type} → Run σ α → Run τ α → Prop
  pure : ∀ {α : Type} (a : α), rel (pure a) (pure a)
  throw : ∀ {α : Type} (s : Stop), rel (throw s : Run σ α) (throw s)
  bind : ∀ {α β : Type} {x : Run σ α} {y : Run τ α} {f : α → Run σ β} {g : α → Run τ β},
    rel x y → (∀ a, rel (f a) (g a)) → rel (x >>= f) (y >>= g)
  attempt : ∀ {α : Type} {x : Run σ α} {y : Run τ α}, rel x y → rel (attempt x) (attempt y)
  log : ∀ event, rel (log event) (log event)
  mark : ∀ key rule, rel (mark key rule) (mark key rule)
  beginPass : rel beginPass beginPass
  fresh : ∀ tree, rel (fresh tree) (fresh tree)
  freshId : ∀ idPrefix, rel (freshId idPrefix) (freshId idPrefix)

/-- A comparison is a congruence. -/
def Run.Comparison.congruence (C : Comparison σ τ) : Congruence σ τ where
  rel := C.rel
  pure := C.pure
  bind := C.bind
  log := C.log
  mark := C.mark
  beginPass := C.beginPass

/-- What the engines have under the number of a rule is related: neither has a body, or the bodies
are related whenever the passes are that they ask for. -/
def Engine.RuleAlike (C : Run.Congruence σ τ) (e : Engine σ) (e' : Engine τ) (rule : RuleId) :
    Prop :=
  (e.rulebook.body? rule = none ∧ e'.rulebook.body? rule = none) ∨
    ∃ body body', e.rulebook.body? rule = some body ∧ e'.rulebook.body? rule = some body' ∧
      ∀ run run', (∀ pass, C.rel (run pass) (run' pass)) → ∀ position record,
        C.rel (e.runBody run body position record) (e'.runBody run' body' position record)

/-- A record is matched by the same rules in both engines, and these are related. -/
structure Engine.MatchesAlike (C : Run.Congruence σ τ) (e : Engine σ) (e' : Engine τ)
    (component : String) (variant part : Option String) : Prop where
  resolve : e.rulebook.resolve component variant part = e'.rulebook.resolve component variant part
  rules : ∀ s rules, e.rulebook.resolve component variant part = some (s, rules) →
    ∀ rule ∈ rules, RuleAlike C e e' rule

/-- What the guard of the first engine lets through that of the second lets through, too; and a
failure of the first guard is related to what the second engine does there. -/
structure Engine.GuardAlike (C : Run.Congruence σ τ) (e : Engine σ) (e' : Engine τ) : Prop where
  admits : ∀ n, e.options.refuses n = false → e'.options.refuses n = false
  refuses : ∀ n label (y : Run τ Pass), e.options.refuses n = true →
    (e'.options.refuses n = true →
      y = throw (.failed (.divergence label e'.options.divergenceLimit))) →
    C.rel (throw (.failed (.divergence label e.options.divergenceLimit))) y

/-- The engines differ only in the bodies of their rules, and those are related whenever the passes
are that they ask for. -/
structure Engine.Alike (C : Run.Comparison σ τ) (e : Engine σ) (e' : Engine τ) : Prop where
  options : e.options = e'.options
  resolveOwner : ∀ r owner, e.resolveOwner r owner = e'.resolveOwner r owner
  resolve : ∀ component variant part,
    e.rulebook.resolve component variant part = e'.rulebook.resolve component variant part
  bodies : ∀ rule, RuleAlike C.congruence e e' rule

/-- Visits of the two engines are related whenever the passes are that their rules ask for. -/
structure Engine.Parallel (C : Run.Congruence σ τ) (e : Engine σ) (e' : Engine τ) : Prop where
  visit : ∀ {run : Pass → Run σ Pass} {run' : Pass → Run τ Pass},
    (∀ pass, C.rel (run pass) (run' pass)) → ∀ pass site record,
      C.rel (e.visit run pass site record) (e'.visit run' pass site record)

/-- What is done with a record of a component that has come up: the guard may refuse its site, the
record may be stopped, and else its rules run. -/
def Engine.treat (e : Engine σ) (run : Pass → Run σ Pass) (pass : Pass) (site : Site)
    (record : Record) (owner : Owner) (component : String) : Run σ Pass := do
  if e.options.refuses site.rounds then
    throw (.failed (.divergence (Selector.label component record.part) e.options.divergenceLimit))
  else if record.rendering.stopped then return pass.keep site record owner
  else
    match ← e.applyRules run pass.number site record component owner.variant with
    | .kept record => return pass.keep site record owner
    | .replaced record tree => return pass.replace site record tree owner

variable {C : Run.Congruence σ τ} {e : Engine σ} {e' : Engine τ} {run : Pass → Run σ Pass}
  {run' : Pass → Run τ Pass}

/-- After the owner is settled, a record that has a component is entered into the journal and
treated. -/
theorem Engine.visit_eq {pass : Pass} {site : Site} {found r : Record} {owner : Owner}
    (hr : e.resolveOwner found site.owner = (r, owner)) : e.visit run pass site found =
      match r.component with
      | none => pure (pass.keep site r owner)
      | some component =>
        Run.log (.visited pass.number site.path r.key component owner.variant r.part) >>= fun _ =>
          e.treat run pass site.count r owner component := by
  unfold visit treat
  rw [hr]
  dsimp only
  cases r.component <;> rfl

theorem Context.runAhead_congr (hrun : ∀ pass, C.rel (run pass) (run' pass)) (c : Context) :
    C.rel (c.runAhead run) (c.runAhead run') := by
  unfold Context.runAhead
  exact C.bind C.beginPass fun number => C.bind (hrun _) fun pass => C.pure _

namespace Engine.Parallel

/-- Lists of related rules are related. -/
theorem runRules (hrun : ∀ pass, C.rel (run pass) (run' pass)) (pass : Nat) (site : Site)
    (key : Key) : ∀ (rules : List RuleId) (record : Record),
      (∀ rule ∈ rules, RuleAlike C e e' rule) →
        C.rel (e.runRules run pass site key rules record)
          (e'.runRules run' pass site key rules record)
  | [], record, _ => C.pure _
  | rule :: rest, record, h => by
    obtain ⟨hrule, hrest⟩ := List.forall_mem_cons.mp h
    unfold Engine.runRules
    refine C.bind (C.mark key rule) fun marked => ?_
    cases marked with
    | false => exact runRules hrun pass site key rest record hrest
    | true =>
      simp only [if_true]
      rcases hrule with ⟨hb, hb'⟩ | ⟨body, body', hb, hb', hrel⟩ <;> rw [hb, hb']
      · exact runRules hrun pass site key rest record hrest
      refine C.bind (C.log _) fun _ => C.bind (hrel run run' hrun _ _) fun x => ?_
      obtain ⟨answer, c⟩ := x
      cases hr : replacement? answer with
      | some tree =>
        dsimp only
        exact C.bind (C.log _) fun _ => C.pure _
      | none =>
        dsimp only
        split
        · exact C.pure _
        · exact runRules hrun pass site key rest c.record hrest

/-- The rules of a record that is matched alike are related. -/
theorem applyRules (hrun : ∀ pass, C.rel (run pass) (run' pass)) (pass : Nat) (site : Site)
    {record : Record} {component : String} {variant : Option String}
    (h : MatchesAlike C e e' component variant record.part) :
    C.rel (e.applyRules run pass site record component variant)
      (e'.applyRules run' pass site record component variant) := by
  unfold Engine.applyRules
  rw [← h.resolve]
  split
  · exact C.pure _
  · rename_i s rules hres
    exact runRules hrun _ _ _ _ _ (h.rules s rules hres)

/-- A record that is matched alike is treated alike. -/
theorem treat (hguard : GuardAlike C e e') (hrun : ∀ pass, C.rel (run pass) (run' pass))
    (pass : Pass) (site : Site) {record : Record} {owner : Owner} {component : String}
    (h : MatchesAlike C e e' component owner.variant record.part) :
    C.rel (e.treat run pass site record owner component)
      (e'.treat run' pass site record owner component) := by
  unfold Engine.treat
  cases hg : e.options.refuses site.rounds with
  | true => exact hguard.refuses _ _ _ hg fun hg' => if_pos hg'
  | false =>
    simp only [hguard.admits _ hg, Bool.false_eq_true, if_false]
    split
    · exact C.pure _
    · refine C.bind (applyRules hrun _ _ h) fun verdict => ?_
      cases verdict <;> exact C.pure _

/-- Visits are related if owners are settled alike and all records are matched alike. -/
theorem of_matchesAlike (hguard : GuardAlike C e e')
    (howner : ∀ r owner, e.resolveOwner r owner = e'.resolveOwner r owner)
    (h : ∀ component variant part, MatchesAlike C e e' component variant part) :
    Parallel C e e' where
  visit hrun pass site record := by
    rcases hr : e.resolveOwner record site.owner with ⟨r, owner⟩
    rw [visit_eq hr, visit_eq (howner record site.owner ▸ hr)]
    cases r.component with
    | none => exact C.pure _
    | some component =>
      exact C.bind (C.log _) fun _ => treat hguard hrun pass site.count (h ..)

theorem step (h : Parallel C e e') (hrun : ∀ pass, C.rel (run pass) (run' pass)) (pass : Pass)
    (site : Site) : C.rel (e.step run pass site) (e'.step run' pass site) := by
  unfold Engine.step
  split
  · exact C.pure _
  · exact h.visit hrun _ _ _
  · exact C.pure _

/-- Passes of the two engines are related if they are when the steps of the first are used up. -/
theorem runPass (h : Parallel C e e') {more : Nat}
    (hcut : ∀ pass, C.rel (e.runPass 0 pass) (e'.runPass more pass)) : ∀ (fuel : Nat) (pass : Pass),
      C.rel (e.runPass fuel pass) (e'.runPass (fuel + more) pass)
  | 0, pass => by
    rw [Nat.zero_add]
    exact hcut pass
  | fuel + 1, pass => by
    rw [Nat.add_right_comm]
    unfold Engine.runPass
    split
    · exact C.pure _
    · exact C.bind (h.step (runPass h hcut fuel) _ _) fun pass => runPass h hcut fuel pass

theorem expandIn (h : Parallel C e e') {more : Nat}
    (hcut : ∀ pass, C.rel (e.runPass 0 pass) (e'.runPass more pass)) (fuel : Nat) (root : Node) :
    C.rel (e.expandIn fuel root) (e'.expandIn (fuel + more) root) := by
  unfold Engine.expandIn
  exact C.bind C.beginPass fun number => C.bind (h.runPass hcut fuel _) fun pass => C.pure _

end Engine.Parallel

/-! ### Engines with the same options -/

/-- Guards with the same options are alike. -/
theorem Engine.GuardAlike.of_options {C : Run.Comparison σ τ} (h : e.options = e'.options) :
    GuardAlike C.congruence e e' where
  admits _ hg := h ▸ hg
  refuses n label y hg hy := by
    rw [hy (h ▸ hg), h]
    exact C.throw _

/-- Engines that are alike match all records alike. -/
theorem Engine.Alike.matchesAlike {C : Run.Comparison σ τ} (h : Alike C e e') (component : String)
    (variant part : Option String) : MatchesAlike C.congruence e e' component variant part :=
  ⟨h.resolve component variant part, fun _ _ _ rule _ => h.bodies rule⟩

/-- A program is compared with itself by what compares reading and changing the memory. -/
theorem RuleM.exec_congr {C : Run.Comparison σ σ} (hget : C.rel get get)
    (hremember : ∀ memory : σ, C.rel (modify fun w => { w with memory })
      (modify fun w => { w with memory })) {idPrefix : String} {run run' : Pass → Run σ Pass}
    (hrun : ∀ pass, C.rel (run pass) (run' pass)) (body : RuleM σ α) :
    ∀ c, C.rel (body.exec idPrefix run c) (body.exec idPrefix run' c) := by
  induction body with
  | done a => exact fun c => C.pure _
  | fail s => exact fun c => C.throw _
  | look next ih => exact fun c => ih c c
  | write x next ih => exact fun c => ih _
  | generateId next ih => exact fun c => C.bind (C.freshId _) fun id => ih id c
  | issue tree next ih => exact fun c => C.bind (C.fresh _) fun tree => ih tree c
  | runAhead next ih =>
    intro c
    have ha : C.rel (c.runAhead run) (c.runAhead run') :=
      c.runAhead_congr (C := C.congruence) hrun
    unfold RuleM.exec
    refine C.bind (C.attempt ha) fun r => ?_
    cases r with
    | ok c' => exact ih (.ok ()) c'
    | error f => exact ih (.error f) c
  | «recall» next ih => exact fun c => C.bind hget fun w => ih w.memory c
  | remember memory next ih => exact fun c => C.bind (hremember memory) fun _ => ih c

theorem Engine.Alike.parallel {C : Run.Comparison σ τ} (h : Alike C e e') :
    Parallel C.congruence e e' :=
  .of_matchesAlike (.of_options h.options) h.resolveOwner h.matchesAlike

/-- The rulebook with the bodies of its rules rewritten. -/
def Rulebook.mapBodies (f : RuleM σ (Option Node) → RuleM τ (Option Node)) (b : Rulebook σ) :
    Rulebook τ where
  rules := b.rules.map fun rule => ⟨rule.selectors, f rule.body⟩
  bySelector := b.bySelector
  defaultVariants := b.defaultVariants

theorem Rulebook.mapBodies_body? (f : RuleM σ (Option Node) → RuleM τ (Option Node))
    (b : Rulebook σ) (rule : RuleId) : (b.mapBodies f).body? rule = (b.body? rule).map f := by
  simp [body?, mapBodies, Function.comp_def]

/-- The engine with the bodies of its rules rewritten. -/
def Engine.mapBodies (f : RuleM σ (Option Node) → RuleM τ (Option Node)) (e : Engine σ) :
    Engine τ where
  rulebook := e.rulebook.mapBodies f
  options := e.options
  library := e.library
  nextId := e.nextId

theorem Engine.alike_mapBodies (C : Run.Comparison σ τ) (e : Engine σ)
    (f : RuleM σ (Option Node) → RuleM τ (Option Node))
    (hf : ∀ (body : RuleM σ (Option Node)) (run : Pass → Run σ Pass) (run' : Pass → Run τ Pass),
      (∀ pass, C.rel (run pass) (run' pass)) → ∀ c,
        C.rel (body.exec e.options.idPrefix run c) ((f body).exec e.options.idPrefix run' c)) :
    Alike C e (e.mapBodies f) where
  options := rfl
  resolveOwner _ _ := rfl
  resolve _ _ _ := rfl
  bodies rule := by
    have hmap : (e.mapBodies f).rulebook.body? rule = (e.rulebook.body? rule).map f :=
      e.rulebook.mapBodies_body? f rule
    unfold RuleAlike
    rw [hmap]
    cases hb : e.rulebook.body? rule with
    | none => exact Or.inl ⟨rfl, rfl⟩
    | some body =>
      exact Or.inr ⟨body, _, rfl, rfl, fun run run' hrun _ _ => hf body run run' hrun _⟩

/-- Runs that are compared by equality. -/
def Run.Comparison.equality (σ : Type) : Run.Comparison σ σ where
  rel := Eq
  pure _ := rfl
  throw _ := rfl
  bind hx hf := by rw [hx, funext hf]
  attempt := congrArg Run.attempt
  log _ := rfl
  mark _ _ := rfl
  beginPass := rfl
  fresh _ := rfl
  freshId _ := rfl

/-- The counter of an engine has no part in a run. -/
theorem Engine.expandIn_nextId (e : Engine σ) (nextId : UInt64) (fuel : Nat) (root : Node) :
    ({ e with nextId } : Engine σ).expandIn fuel root = e.expandIn fuel root := by
  have halike : Alike (.equality σ) { e with nextId } e := by
    refine ⟨rfl, fun _ _ => rfl, fun _ _ _ => rfl, fun rule => ?_⟩
    change (e.rulebook.body? rule = none ∧ _) ∨ ∃ body body', e.rulebook.body? rule = _ ∧ _
    cases e.rulebook.body? rule with
    | none => exact Or.inl ⟨rfl, rfl⟩
    | some body =>
      refine Or.inr ⟨body, body, rfl, rfl, fun run run' hrun _ _ => ?_⟩
      obtain rfl : run = run' := funext hrun
      rfl
  have hcut : ∀ pass, ({ e with nextId } : Engine σ).runPass 0 pass = e.runPass 0 pass :=
    fun _ => rfl
  exact halike.parallel.expandIn hcut fuel root

end ComponentTree
