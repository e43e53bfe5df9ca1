import ComponentTree.Proofs.Expansion.Fixpoint
import ComponentTree.Proofs.Expansion.Fuel

/-!
What the divergence guard changes.

All that the guard does to an expansion is to make it fail. If rules pass on the failures of the
passes that they ask for, then an expansion under a higher limit, or without the guard, does what
one under a lower limit does, unless that one ends with the failure of the guard (`Loosened`); this
carries over from places that are refused to rules, passes and expansions. Main statement
(`guard_only_stops`): an expansion that the guard does not stop has the same outcome under every
higher limit and without the guard, and one that ends without the guard has the same outcome under
any limit or is stopped.
-/

namespace ComponentTree

variable {σ α β : Type}

/-- A result that is the failure of the guard. -/
def Diverged (result : Except Stop α) : Prop :=
  ∃ label limit, result = .error (.failed (.divergence label limit))

theorem Diverged.ne_exhausted {result : Except Stop α} (h : Diverged result) :
    result ≠ .error .exhausted := by
  obtain ⟨label, limit, rfl⟩ := h
  rintro ⟨⟩

/-! ### Rules that pass on failures -/

namespace RuleM

/-- Whatever the program does, it asks for no passes and ends with the failure `f`. -/
inductive FailsWith (f : Failure) : RuleM σ α → Prop
  | fail : FailsWith f (.fail f)
  | look {next : Context → RuleM σ α} (h : ∀ c, FailsWith f (next c)) : FailsWith f (.look next)
  | write (x : Write) {next : RuleM σ α} (h : FailsWith f next) : FailsWith f (.write x next)
  | generateId {next : String → RuleM σ α} (h : ∀ id, FailsWith f (next id)) :
      FailsWith f (.generateId next)
  | issue (tree : Node) {next : Node → RuleM σ α} (h : ∀ t, FailsWith f (next t)) :
      FailsWith f (.issue tree next)
  | recall {next : σ → RuleM σ α} (h : ∀ m, FailsWith f (next m)) : FailsWith f (.recall next)
  | remember (memory : σ) {next : RuleM σ α} (h : FailsWith f next) :
      FailsWith f (.remember memory next)

/-- When a pass that the program asks for fails, the program fails with the same failure. -/
inductive PassesOn : RuleM σ α → Prop
  | done (a : α) : PassesOn (.done a)
  | fail (f : Failure) : PassesOn (.fail f)
  | look {next : Context → RuleM σ α} (h : ∀ c, PassesOn (next c)) : PassesOn (.look next)
  | write (x : Write) {next : RuleM σ α} (h : PassesOn next) : PassesOn (.write x next)
  | generateId {next : String → RuleM σ α} (h : ∀ id, PassesOn (next id)) :
      PassesOn (.generateId next)
  | issue (tree : Node) {next : Node → RuleM σ α} (h : ∀ t, PassesOn (next t)) :
      PassesOn (.issue tree next)
  | runAhead {next : Except Failure Unit → RuleM σ α} (herror : ∀ f, FailsWith f (next (.error f)))
      (hok : PassesOn (next (.ok ()))) : PassesOn (.runAhead next)
  | recall {next : σ → RuleM σ α} (h : ∀ m, PassesOn (next m)) : PassesOn (.recall next)
  | remember (memory : σ) {next : RuleM σ α} (h : PassesOn next) :
      PassesOn (.remember memory next)

theorem FailsWith.exec {f : Failure} {body : RuleM σ α} (h : FailsWith f body) (idPrefix : String)
    (run : Pass → Run σ Pass) : ∀ (c : Context) (w : World σ),
      ∃ w', body.exec idPrefix run c w = (.error (.failed f), w') := by
  induction h with
  | fail => exact fun c w => ⟨w, rfl⟩
  | look _ ih => exact fun c => ih c c
  | write x _ ih => exact fun c => ih (c.write x)
  | generateId _ ih => exact fun c w => ih _ c _
  | issue tree _ ih => exact fun c w => ih _ c _
  | «recall» _ ih => exact fun c w => ih w.memory c w
  | remember memory _ ih => exact fun c w => ih c { w with memory }

/-- A program that ends with a failure never asks for passes, so they have no part in it. -/
theorem FailsWith.exec_eq {f : Failure} {body : RuleM σ α} (h : FailsWith f body)
    {idPrefix : String} (run run' : Pass → Run σ Pass) : ∀ (c : Context) (w : World σ),
      body.exec idPrefix run c w = body.exec idPrefix run' c w := by
  induction h with
  | fail => exact fun c w => rfl
  | look _ ih => exact fun c => ih c c
  | write x _ ih => exact fun c => ih (c.write x)
  | generateId _ ih => exact fun c w => ih _ c _
  | issue tree _ ih => exact fun c w => ih _ c _
  | «recall» _ ih => exact fun c w => ih w.memory c w
  | remember memory _ ih => exact fun c w => ih c { w with memory }

end RuleM

/-! ### Runs that are stopped less -/

namespace Run

/-- `y` does what `x` does, unless `x` ends with the failure of the guard. -/
def Loosened (x y : Run σ α) : Prop := ∀ w, Diverged (x w).1 ∨ y w = x w

theorem Loosened.refl (x : Run σ α) : Loosened x x := fun _ => Or.inr rfl

theorem Loosened.bind {x y : Run σ α} {f g : α → Run σ β} (h : Loosened x y)
    (hf : ∀ a, Loosened (f a) (g a)) : Loosened (x >>= f) (y >>= g) := by
  intro w
  rw [bind_apply, bind_apply]
  rcases h w with ⟨label, limit, hx⟩ | hy
  · rcases hw : x w with ⟨s | a, w'⟩ <;> rw [hw] at hx <;> cases hx
    exact Or.inl ⟨label, limit, rfl⟩
  · rw [hy]
    rcases x w with ⟨s | a, w'⟩
    · exact Or.inr rfl
    · exact hf a w'

/-- Being stopped less, as a congruence. -/
def loosening (σ : Type) : Congruence σ σ where
  rel := Loosened
  pure _ := .refl _
  bind := Loosened.bind
  log _ := .refl _
  mark _ _ := .refl _
  beginPass := .refl _

end Run

/-- A program that passes on failures is stopped less when the passes are that it asks for. -/
theorem RuleM.PassesOn.exec_loosened {body : RuleM σ α} (h : body.PassesOn) (idPrefix : String)
    {run run' : Pass → Run σ Pass} (hrun : ∀ pass, (run pass).Loosened (run' pass)) :
    ∀ c, (body.exec idPrefix run c).Loosened (body.exec idPrefix run' c) := by
  induction h with
  | done a => exact fun c => .refl _
  | fail f => exact fun c => .refl _
  | look _ ih => exact fun c => ih c c
  | write x _ ih => exact fun c => ih (c.write x)
  | generateId _ ih => exact fun c => (Run.Loosened.refl _).bind fun id => ih id c
  | issue tree _ ih => exact fun c => (Run.Loosened.refl _).bind fun t => ih t c
  | @runAhead next herror _ ih =>
    intro c w
    have hahead : (c.runAhead run).Loosened (c.runAhead run') :=
      c.runAhead_congr (C := Run.loosening σ) hrun
    unfold RuleM.exec
    rw [Run.bind_apply, Run.bind_apply, Run.attempt_apply, Run.attempt_apply]
    rcases hahead w with ⟨label, limit, hx⟩ | hy
    · -- the guard stopped the pass, and the program passes that on
      rcases hw : c.runAhead run w with ⟨s | c', w'⟩ <;> rw [hw] at hx <;> cases hx
      obtain ⟨w'', hfail⟩ := (herror (.divergence label limit)).exec idPrefix run c w'
      exact Or.inl ⟨label, limit, congrArg Prod.fst hfail⟩
    · rw [hy]
      rcases c.runAhead run w with ⟨(f | _) | c', w'⟩
      · exact Or.inr ((herror f).exec_eq run' run c w')
      · exact Or.inr rfl
      · exact ih c' w'
  | «recall» _ ih => exact fun c => (Run.Loosened.refl _).bind fun w => ih w.memory c
  | remember memory _ ih => exact fun c => (Run.Loosened.refl _).bind fun _ => ih c

/-! ### Engines that differ in their guard -/

namespace Engine

/-- The engine with the guard on, and a limit. -/
def guardedBy (e : Engine σ) (limit : UInt32) : Engine σ :=
  e.setOptions { e.options with divergenceGuard := true, divergenceLimit := limit }

theorem refuses_guardedBy (e : Engine σ) (limit : UInt32) (n : Nat) :
    (e.guardedBy limit).options.refuses n = true ↔ limit.toNat < n := decide_eq_true_iff

/-- The rules pass on the failures of the passes that they ask for. -/
def PassesOn (e : Engine σ) : Prop :=
  ∀ rule body, e.rulebook.body? rule = some body → body.PassesOn

variable {e : Engine σ}

/-- An engine whose guard refuses no more places is stopped less. -/
theorem PassesOn.parallel (h : e.PassesOn) {options : Options}
    (hid : options.idPrefix = e.options.idPrefix)
    (hrefuses : ∀ n, options.refuses n = true → e.options.refuses n = true) :
    Parallel (Run.loosening σ) e (e.setOptions options) := by
  refine .of_matchesAlike ⟨fun n hn => ?_, fun n label y _ _ _ => Or.inl ⟨label, _, rfl⟩⟩
    (fun _ _ => rfl) fun component variant part => ⟨rfl, fun _ _ _ rule _ => ?_⟩
  · cases hr : options.refuses n with
    | true => rw [hrefuses n hr] at hn; cases hn
    | false => exact hr
  · cases hb : e.rulebook.body? rule with
    | none => exact Or.inl ⟨hb, hb⟩
    | some body =>
      refine Or.inr ⟨body, body, hb, hb, fun run run' hrun position record => ?_⟩
      have hbody := (h rule body hb).exec_loosened e.options.idPrefix hrun
        { record, position, library := e.library }
      unfold runBody
      change Run.Loosened _ (body.exec options.idPrefix run' _)
      rw [hid]
      exact hbody

end Engine

/-- The outcomes are the same but for the options of the engines: the answer, all that the ledger
holds, and what the next expansion begins with. -/
structure Expansion.SameAs (x y : Expansion σ) : Prop where
  answer : x.answer = y.answer
  ledger : x.ledger = y.ledger
  nextKey : x.nextKey = y.nextKey
  nextId : x.engine.nextId = y.engine.nextId
  memory : x.memory = y.memory

namespace Engine

variable {e : Engine σ} {nextKey : Key} {memory : σ} {root : Node}

/-- An expansion that the guard does not stop is the same by an engine whose guard refuses no more
places. -/
theorem PassesOn.expand_sameAs (h : e.PassesOn) (options : Options)
    (hid : options.idPrefix = e.options.idPrefix)
    (hrefuses : ∀ n, options.refuses n = true → e.options.refuses n = true) (fuel : Nat)
    (nextKey : Key) (memory : σ) (root : Node) :
    Diverged (e.expand fuel nextKey memory root).answer ∨
      (e.expand fuel nextKey memory root).SameAs
        ((e.setOptions options).expand fuel nextKey memory root) := by
  have hcut : ∀ pass, (e.runPass 0 pass).Loosened ((e.setOptions options).runPass 0 pass) :=
    fun _ => .refl _
  have hrun := (h.parallel hid hrefuses).expandIn hcut fuel root
    { nextKey, nextId := e.nextId, memory }
  refine hrun.imp id fun heq => ?_
  have hworld := congrArg Prod.snd heq.symm
  exact ⟨congrArg Prod.fst heq.symm, congrArg World.ledger hworld, congrArg World.nextKey hworld,
    congrArg World.nextId hworld, congrArg World.memory hworld⟩

/-- An expansion that ends, and not by the guard, ends the same by an engine whose guard refuses no
more places. -/
theorem PassesOn.endsWith_sameAs (h : e.PassesOn) (options : Options)
    (hid : options.idPrefix = e.options.idPrefix)
    (hrefuses : ∀ n, options.refuses n = true → e.options.refuses n = true) {x : Expansion σ}
    (hx : e.EndsWith nextKey memory root x) (hdiverged : ¬ Diverged x.answer) :
    ∃ y, (e.setOptions options).EndsWith nextKey memory root y ∧ x.SameAs y := by
  obtain ⟨hends, n, hn⟩ := hx
  have hsame := h.expand_sameAs options hid hrefuses n nextKey memory root
  rw [hn n (Nat.le_refl n)] at hsame
  have hsame := hsame.resolve_left hdiverged
  exact ⟨_, endsWith_of_answer (hsame.answer ▸ hends), hsame⟩

/-- The guard only turns expansions into failures. If rules pass on the failures of the passes that
they ask for, an expansion that ends under a limit, and not by the guard, has the same outcome under
every higher limit and without the guard: the same answer or failure, the same rules started in the
same order, and the same identifiers given out. One that ends without the guard has the same outcome
under any limit, or the guard stops it. -/
theorem guard_only_stops (h : e.PassesOn) (nextKey : Key) (memory : σ) (root : Node) :
    (∀ limit x, (e.guardedBy limit).EndsWith nextKey memory root x → ¬ Diverged x.answer →
      (∀ limit', limit ≤ limit' →
        ∃ y, (e.guardedBy limit').EndsWith nextKey memory root y ∧ x.SameAs y) ∧
      ∃ y, (e.setGuard false).EndsWith nextKey memory root y ∧ x.SameAs y) ∧
    ∀ y, (e.setGuard false).EndsWith nextKey memory root y → ∀ limit,
      ∃ x, (e.guardedBy limit).EndsWith nextKey memory root x ∧
        (Diverged x.answer ∨ x.SameAs y) := by
  have hoff : ∀ n, (e.setGuard false).options.refuses n ≠ true := fun n =>
    Bool.eq_false_iff.mp (Options.refuses_of_off rfl n)
  constructor
  · intro limit x hx hdiverged
    have hguarded : (e.guardedBy limit).PassesOn := h
    constructor
    · intro limit' hle
      refine hguarded.endsWith_sameAs (e.guardedBy limit').options rfl (fun n hn => ?_) hx
        hdiverged
      have hle' : limit.toNat ≤ limit'.toNat := hle
      have hn' := (e.refuses_guardedBy limit' n).mp hn
      exact (e.refuses_guardedBy limit n).mpr (Nat.lt_of_le_of_lt hle' hn')
    · exact hguarded.endsWith_sameAs (e.setGuard false).options rfl
        (fun n hn => absurd hn (hoff n)) hx hdiverged
  · rintro y ⟨hends, n, hn⟩ limit
    -- with the steps that suffice without the guard, the guard has stopped the expansion or not
    have hguarded : (e.guardedBy limit).PassesOn := h
    have hsame := hguarded.expand_sameAs (e.setGuard false).options rfl
      (fun n hn => absurd hn (hoff n)) n nextKey memory root
    have hy : ((e.guardedBy limit).setOptions (e.setGuard false).options).expand n nextKey memory
        root = y := hn n (Nat.le_refl n)
    rw [hy] at hsame
    refine ⟨_, endsWith_of_answer ?_, hsame⟩
    rcases hsame with hd | hs
    · exact hd.ne_exhausted
    · rw [hs.answer]
      exact hends

/-- An engine with two rules for a box. The newer one runs the other one ahead, and puts a lid with
a new identifier in the place of the box; the other one sets a tag. -/
def lidding : Engine Unit where
  rulebook := ((({} : Rulebook Unit).register [⟨"box", .none, none⟩]
    (.write (.tag "b") (.done none))).1.register [⟨"box", .none, none⟩]
    (.runAhead fun
      | .ok () => .generateId fun id => .done (some (.record
        { Record.blank with key := 2, component := some "lid", part := some id }))
      | .error f => .fail f)).1

theorem lidding_passesOn : lidding.PassesOn := by
  intro rule body h
  match rule with
  | 0 =>
    obtain rfl := Option.some.inj h
    exact .write _ (.done _)
  | 1 =>
    obtain rfl := Option.some.inj h
    exact .runAhead (fun f => .fail) (.generateId fun id => .done _)
  | _ + 2 => cases h

/-- The rules go through the place of a box twice, for the box and for its lid. So the limit 2 is
enough for the same outcome as under a higher limit or without the guard, and with the limit 1 the
guard stops the expansion. -/
theorem lidding_stopped_or_same : lidding.PassesOn ∧
    (∃ x, (lidding.guardedBy 2).EndsWith 3 () (.record .box) x ∧ ¬ Diverged x.answer ∧
      (∃ y, (lidding.guardedBy 5).EndsWith 3 () (.record .box) y ∧ x.SameAs y) ∧
      ∃ y, (lidding.setGuard false).EndsWith 3 () (.record .box) y ∧ x.SameAs y) ∧
    ∃ x, (lidding.guardedBy 1).EndsWith 3 () (.record .box) x ∧
      x.answer = .error (.failed (.divergence "lid__uniq0" 1)) := by
  obtain ⟨hmore, hless⟩ := guard_only_stops lidding_passesOn 3 () (.record .box)
  have htwo : ((lidding.guardedBy 2).expand 5 3 () (.record .box)).stop? = none := by
    decide +kernel
  have hends : (lidding.guardedBy 2).EndsWith 3 () (.record .box)
      ((lidding.guardedBy 2).expand 5 3 () (.record .box)) :=
    endsWith_of_answer (Expansion.ne_exhausted (by rw [htwo]; rintro ⟨⟩))
  have hnot : ¬ Diverged ((lidding.guardedBy 2).expand 5 3 () (.record .box)).answer := by
    rintro ⟨label, limit, h⟩
    rw [Expansion.stop?, h] at htwo
    cases htwo
  obtain ⟨hhigher, y, hy, hsame⟩ := hmore 2 _ hends hnot
  obtain ⟨x, hx, -⟩ := hless y hy 1
  have hone : ((lidding.guardedBy 1).expand 5 3 () (.record .box)).answer =
      .error (.failed (.divergence "lid__uniq0" 1)) := Expansion.stop?_eq_some (by decide +kernel)
  have hstopped : (lidding.guardedBy 1).EndsWith 3 () (.record .box)
      ((lidding.guardedBy 1).expand 5 3 () (.record .box)) :=
    endsWith_of_answer (by rw [hone]; rintro ⟨⟩)
  exact ⟨lidding_passesOn, ⟨_, hends, hnot, hhigher 5 (by decide), y, hy, hsame⟩, x, hx,
    hstopped.unique hx ▸ hone⟩

end Engine

end ComponentTree
