import ComponentTree.Proofs.Expansion.Turns
import ComponentTree.Proofs.Tree.Identity

/-!
Rules on a record.

Running a list of rules with an answer is a derivation: each rule is passed over, starts and lets
the next one go on, stops the record, or replaces it (`Ran`). A relation between what a record and
the world were and what they have become carries over from writes, moves and passes for the record
alone to whole programs and lists of rules (`Carries`). First use: whatever rules do, the record
keeps its identity (`Does.key`).
-/

namespace ComponentTree

variable {σ α : Type}

/-- The record as the rules left it. -/
def Verdict.left : Verdict → Record
  | .kept r => r
  | .replaced r _ => r

/-- A record is run ahead by a pass that begins with the record as its root. -/
theorem Context.runAhead_apply (run : Pass → Run σ Pass) (c : Context) (w : World σ) :
    c.runAhead run w = match run
        (.start w.ledger.passes ⟨c.record.component, none⟩ true (.record c.record))
        { w with ledger := { w.ledger with passes := w.ledger.passes + 1 } } with
      | (.ok pass, w') => (.ok (c.settle pass), w')
      | (.error s, w') => (.error s, w') := by
  unfold runAhead
  rw [Record.snapshot_eq]
  change (run _ >>= fun pass => pure (c.settle pass)) _ = _
  rw [Run.bind_apply]
  generalize run _ _ = result
  rcases result with ⟨_ | _, _⟩ <;> rfl

theorem Context.runAhead_eq_ok {run : Pass → Run σ Pass} {c c' : Context} {w w' : World σ}
    (h : c.runAhead run w = (.ok c', w')) :
    ∃ number pass, run (.start number ⟨c.record.component, none⟩ true (.record c.record))
        { w with ledger := { w.ledger with passes := w.ledger.passes + 1 } } = (.ok pass, w') ∧
      c' = c.settle pass := by
  rw [runAhead_apply] at h
  split at h
  · rename_i pass w₁ hp
    cases h
    exact ⟨_, pass, hp, rfl⟩
  · cases h

/-- A program that has its record run ahead goes on after the pass with what became of it. -/
theorem RuleM.exec_runAhead {idPrefix : String} {run : Pass → Run σ Pass}
    (next : Except Failure Unit → RuleM σ α) (c : Context) (w : World σ) :
    (RuleM.runAhead next).exec idPrefix run c w =
      match Run.attempt (c.runAhead run) w with
      | (.ok (.ok c'), w') => (next (.ok ())).exec idPrefix run c' w'
      | (.ok (.error f), w') => (next (.error f)).exec idPrefix run c w'
      | (.error s, w') => (.error s, w') := by
  rw [exec, Run.bind_apply]
  rcases Run.attempt (c.runAhead run) w with ⟨_ | (_ | _), _⟩ <;> rfl

theorem RuleM.exec_recall {idPrefix : String} {run : Pass → Run σ Pass} (next : σ → RuleM σ α)
    (c : Context) (w : World σ) : (RuleM.recall next).exec idPrefix run c w =
      (next w.memory).exec idPrefix run c w := rfl

namespace Engine

/-! ### Lists of rules -/

/-- Rules on a record with a given key that come to a verdict, one after the other. -/
inductive Ran (e : Engine σ) (run : Pass → Run σ Pass) (pass : Nat) (site : Site) (key : Key) :
    List RuleId → Record → World σ → Verdict → World σ → Prop
  | done {r : Record} {w : World σ} : Ran e run pass site key [] r w (.kept r) w
  | marked {rule : RuleId} {rest : List RuleId} {r : Record} {w w' : World σ} {v : Verdict}
      (hm : (key, rule) ∈ w.ledger.marks) (h : Ran e run pass site key rest r w v w') :
      Ran e run pass site key (rule :: rest) r w v w'
  | missing {rule : RuleId} {rest : List RuleId} {r : Record} {w w' : World σ} {v : Verdict}
      (hm : (key, rule) ∉ w.ledger.marks) (hb : e.rulebook.body? rule = none)
      (h : Ran e run pass site key rest r (w.mark key rule) v w') :
      Ran e run pass site key (rule :: rest) r w v w'
  | replaced {rule : RuleId} {rest : List RuleId} {r : Record} {w w' : World σ}
      {body : RuleM σ (Option Node)} {answer : Option Node} {tree : Node} {c : Context}
      (hm : (key, rule) ∉ w.ledger.marks) (hb : e.rulebook.body? rule = some body)
      (hx : e.runBody run body site.position r
        ((w.mark key rule).log (.started pass site.path key rule site.position)) =
          (.ok (answer, c), w'))
      (ha : replacement? answer = some tree) :
      Ran e run pass site key (rule :: rest) r w (.replaced c.record tree)
        (w'.log (.replaced pass site.path key rule))
  | stopped {rule : RuleId} {rest : List RuleId} {r : Record} {w w' : World σ}
      {body : RuleM σ (Option Node)} {answer : Option Node} {c : Context}
      (hm : (key, rule) ∉ w.ledger.marks) (hb : e.rulebook.body? rule = some body)
      (hx : e.runBody run body site.position r
        ((w.mark key rule).log (.started pass site.path key rule site.position)) =
          (.ok (answer, c), w'))
      (ha : replacement? answer = none) (hs : c.record.rendering.stopped = true) :
      Ran e run pass site key (rule :: rest) r w (.kept c.record) w'
  | went {rule : RuleId} {rest : List RuleId} {r : Record} {w w₁ w' : World σ} {v : Verdict}
      {body : RuleM σ (Option Node)} {answer : Option Node} {c : Context}
      (hm : (key, rule) ∉ w.ledger.marks) (hb : e.rulebook.body? rule = some body)
      (hx : e.runBody run body site.position r
        ((w.mark key rule).log (.started pass site.path key rule site.position)) =
          (.ok (answer, c), w₁))
      (ha : replacement? answer = none) (hs : c.record.rendering.stopped = false)
      (h : Ran e run pass site key rest c.record w₁ v w') :
      Ran e run pass site key (rule :: rest) r w v w'

variable {e : Engine σ} {run : Pass → Run σ Pass} {pass : Nat} {site : Site} {key : Key}

theorem runRules_ran : ∀ {rules : List RuleId} {r : Record} {w w' : World σ} {v : Verdict},
    e.runRules run pass site key rules r w = (.ok v, w') → e.Ran run pass site key rules r w v w'
  | [], _, _, _, _, h => by cases h; exact .done
  | rule :: rest, r, w, w', v, h => by
    unfold runRules at h
    rw [Run.bind_apply, Run.mark_apply] at h
    by_cases hm : (key, rule) ∈ w.ledger.marks
    · simp only [hm, if_true] at h
      exact .marked hm (runRules_ran h)
    · simp only [hm, if_false, if_true] at h
      cases hb : e.rulebook.body? rule with
      | none => rw [hb] at h; exact .missing hm hb (runRules_ran h)
      | some body =>
        rw [hb] at h
        dsimp only at h
        rw [Run.bind_apply, Run.log_apply] at h
        obtain ⟨⟨answer, c⟩, w₁, hx, h⟩ := Run.bind_eq_ok h
        dsimp only at h
        cases ha : replacement? answer with
        | some tree => rw [ha] at h; cases h; exact .replaced hm hb hx ha
        | none =>
          rw [ha] at h
          dsimp only at h
          split at h
          · rename_i hs; cases h; exact .stopped hm hb hx ha hs
          · rename_i hs; exact .went hm hb hx ha (by simpa using hs) (runRules_ran h)

theorem applyRules_eq_ok {r : Record} {component : String} {variant : Option String}
    {w w' : World σ} {v : Verdict}
    (h : e.applyRules run pass site r component variant w = (.ok v, w')) :
    (e.rulebook.resolve component variant r.part = none ∧ v = .kept r ∧ w' = w) ∨
      ∃ s rules, e.rulebook.resolve component variant r.part = some (s, rules) ∧
        e.Ran run pass site r.key rules r w v w' := by
  unfold applyRules at h
  rcases hr : e.rulebook.resolve component variant r.part with _ | ⟨s, rules⟩ <;> rw [hr] at h
  · cases h; exact Or.inl ⟨rfl, rfl, rfl⟩
  · exact Or.inr ⟨s, rules, rfl, runRules_ran h⟩

/-! ### What programs and rules carry along -/

/-- `R r w r' w'` relates a record in a world to what has become of both. It can be followed along
anything that a rule may do. -/
structure Carries (e : Engine σ) (run : Pass → Run σ Pass)
    (R : Record → World σ → Record → World σ → Prop) : Prop where
  trans : ∀ {r w r₁ w₁ r₂ w₂}, R r w r₁ w₁ → R r₁ w₁ r₂ w₂ → R r w r₂ w₂
  write : ∀ r w x, R r w (r.write x) w
  moves : ∀ r {w w'}, World.Moves e w w' → R r w r w'
  ahead : ∀ {c c' : Context} {w w' : World σ}, c.runAhead run w = (.ok c', w') →
    R c.record w c'.record w'

variable {R : Record → World σ → Record → World σ → Prop}

theorem Carries.exec (hR : e.Carries run R) (hrun : ∀ pass w, World.Moves e w (run pass w).2)
    (body : RuleM σ α) : ∀ {c c' : Context} {w w' : World σ} {a : α},
      body.exec e.options.idPrefix run c w = (.ok (a, c'), w') → R c.record w c'.record w' := by
  have moved : ∀ {c c' : Context} {w w₁ w' : World σ}, World.Move e w w₁ →
      R c.record w₁ c'.record w' → R c.record w c'.record w' :=
    fun hm h => hR.trans (hR.moves _ (.single hm)) h
  induction body with
  | done a => intro c c' w w' b h; cases h; exact hR.moves _ .refl
  | fail s => intro c c' w w' b h; cases h
  | look next ih => intro c c' w w' b h; exact ih c h
  | write x next ih => intro c c' w w' b h; exact hR.trans (hR.write c.record w x) (ih h)
  | generateId next ih =>
    intro c c' w w' b h
    obtain ⟨id, w₁, hx, h⟩ := Run.bind_eq_ok h
    cases hx
    exact moved .identify (ih _ h)
  | issue tree next ih =>
    intro c c' w w' b h
    obtain ⟨t, w₁, hx, h⟩ := Run.bind_eq_ok h
    cases hx
    exact moved (.issue tree) (ih _ h)
  | runAhead next ih =>
    intro c c' w w' b h
    unfold RuleM.exec at h
    obtain ⟨r, w₁, hx, h⟩ := Run.bind_eq_ok h
    rcases Run.attempt_eq_ok hx with ⟨c₁, rfl, hc⟩ | ⟨f, rfl, hc⟩
    · exact hR.trans (hR.ahead hc) (ih _ h)
    · -- a failed pass leaves the record alone, but the world has moved on
      have hm := c.runAhead_moves hrun w
      rw [hc] at hm
      exact hR.trans (hR.moves _ hm) (ih _ h)
  | «recall» next ih =>
    intro c c' w w' b h
    obtain ⟨w₁, w₂, hx, h⟩ := Run.bind_eq_ok h
    cases hx
    exact ih _ h
  | remember memory next ih =>
    intro c c' w w' b h
    obtain ⟨_, w₁, hx, h⟩ := Run.bind_eq_ok h
    cases hx
    exact moved (.remember memory) (ih h)

/-- One rule, from its mark to the record that it leaves. -/
theorem Carries.runBody (hR : e.Carries run R)
    (hrun : ∀ pass w, World.Moves e w (run pass w).2) {rule : RuleId} {r : Record}
    {w w' : World σ} {body : RuleM σ (Option Node)} {answer : Option Node} {c : Context}
    (hm : (key, rule) ∉ w.ledger.marks) (hb : e.rulebook.body? rule = some body)
    (hx : e.runBody run body site.position r
      ((w.mark key rule).log (.started pass site.path key rule site.position)) =
        (.ok (answer, c), w')) : R r w c.record w' := by
  have hs := World.Move.start (e := e) pass site.path key rule site.position hm (by rw [hb]; rfl)
  exact hR.trans (hR.moves r (.single hs)) (hR.exec hrun body hx)

theorem Carries.ran (hR : e.Carries run R) (hrun : ∀ pass w, World.Moves e w (run pass w).2)
    {rules : List RuleId} {r : Record} {w w' : World σ} {v : Verdict}
    (h : e.Ran run pass site key rules r w v w') : R r w v.left w' := by
  induction h with
  | done => exact hR.moves _ .refl
  | marked _ _ ih => exact ih
  | missing hm hb _ ih => exact hR.trans (hR.moves _ (.single (.skip key _ hm hb))) ih
  | replaced hm hb hx =>
    exact hR.trans (hR.runBody hrun hm hb hx) (hR.moves _ (.single (.replace ..)))
  | stopped hm hb hx => exact hR.runBody hrun hm hb hx
  | went hm hb hx _ _ _ ih => exact hR.trans (hR.runBody hrun hm hb hx) ih

theorem Carries.applyRules (hR : e.Carries run R)
    (hrun : ∀ pass w, World.Moves e w (run pass w).2) {r : Record} {component : String}
    {variant : Option String} {w w' : World σ} {v : Verdict}
    (h : e.applyRules run pass site r component variant w = (.ok v, w')) : R r w v.left w' := by
  rcases applyRules_eq_ok h with ⟨-, rfl, rfl⟩ | ⟨s, rules, -, h⟩
  · exact hR.moves _ .refl
  · exact hR.ran hrun h

/-- A deed, from the record with its owner settled to the record that it leaves. -/
theorem Carries.does (hR : e.Carries run R) (hrun : ∀ pass w, World.Moves e w (run pass w).2)
    {pass : Pass} {w w' : World σ} {deed : Deed} {found left : Record}
    (h : e.Does run pass site w deed w') (hl : deed.leaves? = some (found, left)) :
    R (e.resolveOwner found site.owner).1 w left w' := by
  have arrives : ∀ (r : Record) (owner : Owner) (component : String),
      R r w r (arrive pass site r owner component w) :=
    fun r _ _ => hR.moves r (.single (.visit ..))
  cases h with
  | plain _ hr => cases hl; rw [hr]; exact hR.moves _ .refl
  | stopped _ hr => cases hl; rw [hr]; exact arrives ..
  | kept _ hr _ _ _ hv =>
    cases hl
    rw [hr]
    exact hR.trans (arrives ..) (hR.applyRules hrun hv)
  | replaced _ hr _ _ _ hv =>
    cases hl
    rw [hr]
    exact hR.trans (arrives ..) (hR.applyRules hrun hv)
  | _ => cases hl

end Engine

/-! ### The identity of the record -/

theorem Record.write_key (r : Record) (x : Write) : (r.write x).key = r.key := by
  cases x <;> rfl

/-- The former root of a pass has the identity that the pass began with. -/
def Pass.FormerRootKeyed (pass : Pass) : Prop :=
  ∀ r, pass.formerRoot = some r → some r.key = pass.rootKey

theorem Pass.FormerRootKeyed.after {pass : Pass} (h : pass.FormerRootKeyed) (site : Site)
    (deed : Deed) : (pass.after site deed).FormerRootKeyed := by
  intro r hr
  rw [after_rootKey]
  rcases pass.after_formerRoot site deed with hf | ⟨_, left, -, -, hk, hf⟩ <;> rw [hf] at hr
  · exact h r hr
  · cases hr
    exact hk

theorem Engine.Reaches.formerRootKeyed {e : Engine σ} {limit number : Nat} {owner : Owner}
    {rootOnly : Bool} {root : Node} {pass : Pass} {w₀ w : World σ} {turns : List Turn}
    (h : e.Reaches limit (.start number owner rootOnly root) w₀ turns pass w) :
    pass.FormerRootKeyed := by
  induction h with
  | start => intro r hr; cases hr
  | @turn _ pass _ _ site queue _ deed _ _ _ _ ih =>
    have hkeyed : ({ pass with queue } : Pass).FormerRootKeyed := ih
    exact hkeyed.after site deed

theorem Context.settle_of_key {c : Context} {pass : Pass} {r : Record} (ht : pass.tree = .record r)
    (hk : r.key = c.record.key) : c.settle pass = { c with record := r, replacedBy := none } := by
  unfold settle
  rw [ht]
  exact if_pos hk

theorem Context.settle_of_ne {c : Context} {pass : Pass}
    (h : ∀ r, pass.tree = .record r → r.key ≠ c.record.key) : c.settle pass =
      { c with record := pass.formerRoot.getD c.record, replacedBy := some pass.tree } := by
  unfold settle
  split
  · rename_i r ht
    exact if_neg (h r ht)
  · rfl

/-- After a pass for its record alone a context goes on with the record at the end of the pass, if
this one has the same identity, and else with the record as it was when it was first replaced. -/
theorem Context.settle_record (c : Context) (pass : Pass) :
    (∃ r, pass.tree = .record r ∧ r.key = c.record.key ∧ (c.settle pass).record = r) ∨
      (∀ r, pass.tree = .record r → r.key ≠ c.record.key) ∧
        (c.settle pass).record = pass.formerRoot.getD c.record := by
  by_cases h : ∃ r, pass.tree = .record r ∧ r.key = c.record.key
  · obtain ⟨r, ht, hk⟩ := h
    exact Or.inl ⟨r, ht, hk, by rw [settle_of_key ht hk]⟩
  · have hne : ∀ r, pass.tree = .record r → r.key ≠ c.record.key := fun r ht hk => h ⟨r, ht, hk⟩
    exact Or.inr ⟨hne, by rw [settle_of_ne hne]⟩

/-- Whether or not the pass replaced the record, the context goes on with one of its identity. -/
theorem Context.settle_key {c : Context} {pass : Pass} (h : pass.FormerRootKeyed)
    (hk : pass.rootKey = some c.record.key) : (c.settle pass).record.key = c.record.key := by
  rcases c.settle_record pass with ⟨r, -, hr, hs⟩ | ⟨-, hs⟩ <;> rw [hs]
  · exact hr
  · cases hf : pass.formerRoot with
    | none => rfl
    | some r =>
      have hr := h r hf
      rw [hk, Option.some.injEq] at hr
      exact hr

namespace Engine

variable {e : Engine σ} {site : Site}

theorem runAhead_key {fuel : Nat} {c c' : Context} {w w' : World σ}
    (h : c.runAhead (e.runPass fuel) w = (.ok c', w')) : c'.record.key = c.record.key := by
  obtain ⟨number, pass, hp, rfl⟩ := Context.runAhead_eq_ok h
  obtain ⟨turns, hr, -⟩ := runPass_reaches (Nat.le_refl fuel) .start hp
  exact Context.settle_key hr.formerRootKeyed hr.rootKey_eq

theorem carries_key (e : Engine σ) (fuel : Nat) :
    e.Carries (e.runPass fuel) fun r _ r' _ => r'.key = r.key where
  trans h h' := h'.trans h
  write r _ x := r.write_key x
  moves _ _ _ _ := rfl
  ahead := runAhead_key

theorem resolveOwner_key (r : Record) (owner : Owner) :
    (e.resolveOwner r owner).1.key = r.key := by
  unfold resolveOwner
  split
  · rfl
  · split <;> rfl

/-- Whatever rules do, the record that they leave has the identity of the one that was found. -/
theorem Does.key {fuel : Nat} {pass : Pass} {w w' : World σ} {deed : Deed} {found left : Record}
    (h : e.Does (e.runPass fuel) pass site w deed w') (hl : deed.leaves? = some (found, left)) :
    left.key = found.key :=
  ((e.carries_key fuel).does (e.runPass_moves fuel) h hl).trans (e.resolveOwner_key found _)

end Engine

end ComponentTree
