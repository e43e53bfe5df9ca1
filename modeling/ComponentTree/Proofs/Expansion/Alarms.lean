import ComponentTree.Proofs.Expansion.Fixpoint
import ComponentTree.Proofs.Expansion.Fuel
import ComponentTree.Proofs.Expansion.Rewrites

/-!
What the failure of the guard means.

The guard refuses a record at a place that has been looked at as often as the limit allows. All of
these looks but the one that is refused ended with a replacement, so there were just as many
replacements as the limit says, where the message of the failure has it that there were more. A
failure of the guard may come from a pass that a rule has asked for, and travel through the rule;
that it was raised by the guard takes that rules make up no such failures (`RuleM.Honest`). Main
statement (`expand_divergence`): the guard has raised the alarm at a place where rules had made as
many replacements as the limit allows, and nowhere have they made more (`expand_capped`).
-/

namespace ComponentTree

variable {σ α : Type}

/-- The failure is one of the guard. -/
def Failure.isDivergence : Failure → Bool
  | .divergence .. => true
  | .missing _ | .rule .. => false

/-! ### Rules that make up no failure of the guard -/

/-- The program fails with a failure of the guard only if it has heard of it, from a pass that it
asked for. -/
inductive RuleM.Honest : List Failure → RuleM σ α → Prop
  | done {heard : List Failure} (a : α) : Honest heard (.done a)
  | fail {heard : List Failure} {f : Failure} (h : f.isDivergence = true → f ∈ heard) :
      Honest heard (.fail f)
  | look {heard : List Failure} {next : Context → RuleM σ α} (h : ∀ c, Honest heard (next c)) :
      Honest heard (.look next)
  | write {heard : List Failure} (x : Write) {next : RuleM σ α} (h : Honest heard next) :
      Honest heard (.write x next)
  | generateId {heard : List Failure} {next : String → RuleM σ α}
      (h : ∀ id, Honest heard (next id)) : Honest heard (.generateId next)
  | issue {heard : List Failure} (tree : Node) {next : Node → RuleM σ α}
      (h : ∀ t, Honest heard (next t)) : Honest heard (.issue tree next)
  | runAhead {heard : List Failure} {next : Except Failure Unit → RuleM σ α}
      (herror : ∀ f, Honest (f :: heard) (next (.error f))) (hok : Honest heard (next (.ok ()))) :
      Honest heard (.runAhead next)
  | recall {heard : List Failure} {next : σ → RuleM σ α} (h : ∀ m, Honest heard (next m)) :
      Honest heard (.recall next)
  | remember {heard : List Failure} (memory : σ) {next : RuleM σ α} (h : Honest heard next) :
      Honest heard (.remember memory next)

/-- The rules make up no failure of the guard. -/
def Engine.Honest (e : Engine σ) : Prop :=
  ∀ rule body, e.rulebook.body? rule = some body → body.Honest []

/-! ### Where failures come from -/

namespace Engine

variable {e : Engine σ} {fuel number : Nat} {site : Site} {w w' : World σ} {s : Stop}

/-- Rules stop only in the body of one of them. -/
theorem runRules_stops {key : Key} : ∀ {rules : List RuleId} {r : Record} {w : World σ},
    number < w.ledger.passes →
    e.runRules (e.runPass fuel) number site key rules r w = (.error s, w') →
    ∃ rule body record w₁, e.rulebook.body? rule = some body ∧
      w.Enters (Event.Since number) w₁ ∧
      e.runBody (e.runPass fuel) body site.position record w₁ = (.error s, w')
  | [], r, w, hn, h => by cases h
  | rule :: rest, r, w, hn, h => by
    have hmark : w.Enters (Event.Since number) (w.mark key rule) := .quiet rfl (Nat.le_refl _)
    unfold runRules at h
    rw [Run.bind_apply, Run.mark_apply] at h
    by_cases hm : (key, rule) ∈ w.ledger.marks
    · simp only [hm, if_true] at h
      exact runRules_stops hn h
    simp only [hm, if_false, if_true] at h
    cases hb : e.rulebook.body? rule with
    | none =>
      rw [hb] at h
      obtain ⟨rule', body, record, w₁, hb', henters, hx⟩ :=
        runRules_stops (w := w.mark key rule) hn h
      exact ⟨rule', body, record, w₁, hb', hmark.trans henters, hx⟩
    | some body =>
      rw [hb] at h
      dsimp only at h
      rw [Run.bind_apply, Run.log_apply] at h
      dsimp only at h
      have hstart : w.Enters _ ((w.mark key rule).log
        (.started number site.path key rule site.position)) := hmark.log (Nat.le_refl _) hn
      have hbody := (e.runBody_enters fuel body site.position r
        ((w.mark key rule).log (.started number site.path key rule site.position))).mono
        fun _ he => he.mono fun _ => Nat.le_trans (Nat.le_of_lt hn)
      rw [Run.bind_apply] at h
      rcases hx : e.runBody (e.runPass fuel) body site.position r
        ((w.mark key rule).log (.started number site.path key rule site.position)) with
        ⟨s' | ⟨answer, c⟩, w₂⟩ <;> rw [hx] at h hbody
      · cases h
        exact ⟨rule, body, r, _, hb, hstart, hx⟩
      · dsimp only at h
        cases ha : replacement? answer with
        | some tree => rw [ha] at h; cases h
        | none =>
          rw [ha] at h
          dsimp only at h
          split at h
          · cases h
          · obtain ⟨rule', body', record, w₁, hb', henters, hx'⟩ :=
              runRules_stops (Nat.lt_of_lt_of_le hn hbody.passes) h
            exact ⟨rule', body', record, w₁, hb', (hstart.trans hbody).trans henters, hx'⟩

/-- A step stops only where the guard refuses its site, or in the body of a rule. -/
theorem step_stops {pass : Pass} (hn : pass.number < w.ledger.passes)
    (h : e.step (e.runPass fuel) pass site w = (.error s, w')) :
    (∃ r owner component, e.options.refuses site.count.rounds = true ∧
      s = .failed (.divergence (Selector.label component r.part) e.options.divergenceLimit) ∧
      w' = arrive pass site r owner component w) ∨
    ∃ rule body position record w₁, e.rulebook.body? rule = some body ∧
      w.Enters (Event.Since pass.number) w₁ ∧
      e.runBody (e.runPass fuel) body position record w₁ = (.error s, w') := by
  unfold step at h
  cases ht : pass.tree.at? site.path with
  | none => rw [ht] at h; cases h
  | some node =>
    rw [ht] at h
    cases node with
    | record found =>
      change e.visit (e.runPass fuel) pass site found w = _ at h
      rcases hr : e.resolveOwner found site.owner with ⟨r, owner⟩
      rw [visit_apply hr] at h
      cases hc : r.component with
      | none => rw [hc] at h; cases h
      | some component =>
        rw [hc] at h
        dsimp only at h
        split at h
        · rename_i hg
          cases h
          exact Or.inl ⟨r, owner, component, hg, rfl, rfl⟩
        split at h
        · cases h
        right
        have harrive : w.Enters (Event.Since pass.number) (arrive pass site r owner component w) :=
          (World.Enters.refl w).log (Nat.le_refl _) hn
        rcases hv : e.applyRules (e.runPass fuel) pass.number site.count r component owner.variant
          (arrive pass site r owner component w) with ⟨_ | (_ | _), _⟩ <;> rw [hv] at h <;> cases h
        unfold applyRules at hv
        rcases hres : e.rulebook.resolve component owner.variant r.part with _ | ⟨_, rules⟩ <;>
          rw [hres] at hv
        · cases hv
        · dsimp only at hv
          obtain ⟨rule, body, record, w₁, hb, henters, hx⟩ :=
            runRules_stops (w := arrive pass site r owner component w) hn hv
          exact ⟨rule, body, _, record, w₁, hb, harrive.trans henters, hx⟩
    | _ => cases h

end Engine

/-! ### Alarms -/

/-- The failure is one of the guard, and it was raised at a place where rules had made as many
replacements as the limit allows when the record came up that is named in it. -/
def Alarmed (options : Options) (f : Failure) (journal : List Event) : Prop :=
  ∃ number path key component variant part earlier,
    .visited number path key component variant part :: earlier <:+ journal ∧
    f = .divergence (Selector.label component part) options.divergenceLimit ∧
    options.Guards ∧ rewriteCount number path earlier = options.divergenceLimit.toNat

theorem Alarmed.mono {options : Options} {f : Failure} {journal journal' : List Event}
    (h : Alarmed options f journal) (hj : journal <:+ journal') : Alarmed options f journal' := by
  obtain ⟨number, path, key, component, variant, part, earlier, hsuffix, hrest⟩ := h
  exact ⟨number, path, key, component, variant, part, earlier, hsuffix.trans hj, hrest⟩

variable {e : Engine σ}

/-- Every failure of the guard among these was raised as an alarm. -/
def Heeded (options : Options) (heard : List Failure) (journal : List Event) : Prop :=
  ∀ f ∈ heard, f.isDivergence = true → Alarmed options f journal

theorem Heeded.mono {options : Options} {heard : List Failure} {journal journal' : List Event}
    (h : Heeded options heard journal) (hj : journal <:+ journal') :
    Heeded options heard journal' :=
  fun f hf hd => (h f hf hd).mono hj

/-- A program that makes up no failures of the guard ends with one only if the guard has raised an
alarm. -/
theorem RuleM.Honest.exec_alarmed {fuel : Nat}
    (hahead : ∀ (c : Context) (w w' : World σ) (f : Failure), w.Numbered →
      c.runAhead (e.runPass fuel) w = (.error (.failed f), w') → f.isDivergence = true →
        Alarmed e.options f w'.ledger.journal)
    {heard : List Failure} {body : RuleM σ α} (h : body.Honest heard) :
    ∀ {c : Context} {w w' : World σ} {f : Failure}, w.Numbered →
      Heeded e.options heard w.ledger.journal →
      body.exec e.options.idPrefix (e.runPass fuel) c w = (.error (.failed f), w') →
      f.isDivergence = true → Alarmed e.options f w'.ledger.journal := by
  induction h with
  | done a => intro c w w' f hw hheard hx; cases hx
  | fail hf =>
    intro c w w' f hw hheard hx hd
    cases hx
    exact hheard _ (hf hd) hd
  | look _ ih => intro c w w' f hw hheard hx; exact ih c hw hheard hx
  | write x _ ih => intro c w w' f hw hheard hx; exact ih hw hheard hx
  | generateId _ ih =>
    intro c w w' f hw hheard hx
    have hnext : w.Enters (fun _ => True) { w with nextId := w.nextId + 1 } :=
      .quiet rfl (Nat.le_refl _)
    have hid : w.Enters (fun _ => True) (World.log { w with nextId := w.nextId + 1 }
      (.identified (e.options.idPrefix ++ toString w.nextId.toNat))) := hnext.log trivial trivial
    exact ih _ (hid.numbered hw) (hheard.mono hid.suffix) hx
  | issue tree _ ih =>
    intro c w w' f hw hheard hx
    exact ih _ (w := { w with nextKey := (tree.reissue w.nextKey).2 }) hw hheard hx
  | runAhead _ _ iherror ihok =>
    intro c w w' f hw hheard hx
    have henters := e.runAhead_enters fuel c w
    rw [exec_runAhead, Run.attempt_apply] at hx
    rcases hc : c.runAhead (e.runPass fuel) w with ⟨(g | _) | c', w₁⟩ <;> rw [hc] at hx henters
    · -- the program has heard of the failure now
      refine iherror g (henters.numbered hw) (List.forall_mem_cons.mpr ⟨fun hg => ?_, ?_⟩) hx
      · exact hahead c w w₁ g hw hc hg
      · exact hheard.mono henters.suffix
    · cases hx
    · exact ihok (henters.numbered hw) (hheard.mono henters.suffix) hx
  | «recall» _ ih => intro c w w' f hw hheard hx; exact ih _ hw hheard hx
  | remember memory _ ih =>
    intro c w w' f hw hheard hx
    exact ih (w := { w with memory }) hw hheard hx

namespace Engine

/-- A pass that ends with the failure of the guard, whose rules make up no such failures, ends with
an alarm: its own, or that of a pass that a rule asked for. -/
theorem Honest.runPass_alarmed (h : e.Honest) (fuel number : Nat) (owner : Owner)
    (rootOnly : Bool) (root : Node) {w₀ w' : World σ} {f : Failure}
    (hn : number < w₀.ledger.passes)
    (hnew : ∀ event ∈ w₀.ledger.journal, event.InPass (· < number))
    (hx : e.runPass fuel (.start number owner rootOnly root) w₀ = (.error (.failed f), w'))
    (hd : f.isDivergence = true) : Alarmed e.options f w'.ledger.journal := by
  have hstart : e.Reaches fuel (.start number owner rootOnly root) w₀ [] _ w₀ := .start
  obtain ⟨turns, last, w, hr, hend⟩ := e.runPass_endsAt (Nat.le_refl fuel) hstart
  rw [hx] at hend
  cases hend with
  | @stopped site queue k _ _ hq hk hs =>
    have hnumber : ({ last with queue } : Pass).number = number := hr.number_eq
    have henters : w₀.Enters _ w := hr.enters hn
    have hlt : ({ last with queue } : Pass).number < w.ledger.passes := by
      rw [hnumber]
      exact Nat.lt_of_lt_of_le hn henters.passes
    rcases step_stops hlt hs with ⟨r, owner', component, hrefuses, hf, rfl⟩ |
      ⟨rule, body, position, record, w₁, hb, henters', hx'⟩
    · obtain ⟨hg, hcount⟩ :=
        (hr.tallied hn hnew).rewriteCount_of_refuses (hq ▸ List.mem_cons_self ..) hrefuses
      cases hf
      exact ⟨_, _, _, component, _, r.part, _, List.suffix_rfl, rfl, hg, hcount⟩
    · have hnumbered : w₁.Numbered := henters'.numbered (henters.numbered fun event he =>
        (hnew event he).mono fun _ hlt => Nat.lt_trans hlt hn)
      refine (h rule body hb).exec_alarmed (fun c u u' g hu hc hg => ?_) hnumbered
        (List.forall_mem_nil _) hx' hd
      -- the failure of a pass that was asked for, which had fewer steps
      rw [Context.runAhead_apply] at hc
      split at hc
      · cases hc
      · rename_i stop u₁ hpass
        cases hc
        refine h.runPass_alarmed k u.ledger.passes _ true _ ?_ ?_ hpass hg
        · exact Nat.lt_succ_self u.ledger.passes
        · exact hu
termination_by fuel

/-- With the guard on and a limit that can be exceeded, no place of any pass is rewritten more often
than the limit allows, however the expansion ends. -/
theorem expand_capped (hg : e.options.Guards) (fuel : Nat) (nextKey : Key) (memory : σ)
    (root : Node) : Capped e.options.divergenceLimit.toNat
      (e.expand fuel nextKey memory root).ledger.journal := by
  rcases hp : e.runPass fuel (.start 0 {} false root)
    { nextKey, nextId := e.nextId, memory, ledger := { passes := 1 } } with ⟨result, w'⟩
  have hcapped : Capped e.options.divergenceLimit.toNat
      (e.runPass fuel (.start 0 {} false root)
        { nextKey, nextId := e.nextId, memory, ledger := { passes := 1 } }).2.ledger.journal :=
    runPass_capped hg fuel 0 {} false root Nat.zero_lt_one (List.forall_mem_nil _)
      fun _ _ => Nat.zero_le _
  rw [hp] at hcapped
  rw [(expand_eq_runPass hp).2]
  exact hcapped

/-- If rules make up no failures of the guard, an expansion that ends with the failure of the guard
has come to a record, which the failure names, at a place where rules had made just as many
replacements as the limit allows. It may be a place in a pass that a rule asked for. At no place of
any pass have rules made more replacements than that. -/
theorem expand_divergence (h : e.Honest) {fuel : Nat} {nextKey : Key} {memory : σ} {root : Node}
    {label : String} {limit : UInt32} (hx : (e.expand fuel nextKey memory root).answer =
      .error (.failed (.divergence label limit))) :
    e.options.divergenceGuard = true ∧ limit = e.options.divergenceLimit ∧
      (∃ number path key component variant part earlier,
        .visited number path key component variant part :: earlier <:+
          (e.expand fuel nextKey memory root).ledger.journal ∧
        label = Selector.label component part ∧
        rewriteCount number path earlier = limit.toNat) ∧
      ∀ number path, rewriteCount number path
        (e.expand fuel nextKey memory root).ledger.journal ≤ limit.toNat := by
  rcases hp : e.runPass fuel (.start 0 {} false root)
    { nextKey, nextId := e.nextId, memory, ledger := { passes := 1 } } with ⟨result, w'⟩
  obtain ⟨hanswer, hledger⟩ := expand_eq_runPass hp
  rw [hanswer] at hx
  cases result with
  | ok pass => cases hx
  | error s =>
    cases hx
    obtain ⟨number, path, key, component, variant, part, earlier, hsuffix, hf, hg, hcount⟩ :=
      h.runPass_alarmed fuel 0 {} false root Nat.zero_lt_one (List.forall_mem_nil _) hp rfl
    cases hf
    rw [← hledger] at hsuffix
    exact ⟨hg.on, rfl, ⟨number, path, key, component, variant, part, earlier, hsuffix, rfl, hcount⟩,
      expand_capped hg fuel nextKey memory root⟩

/-- An engine that replaces a box by a lid. Its guard is on. -/
def shutting (limit : UInt32) : Engine Unit where
  rulebook := (({} : Rulebook Unit).register [⟨"box", .none, none⟩]
    (.issue (.record { Record.blank with component := some "lid" }) fun t => .done (some t))).1
  options := { divergenceGuard := true, divergenceLimit := limit }

/-- The same engine with two more rules: one runs the other rule of a box ahead, and one replaces a
lid by another lid. -/
def reshutting (limit : UInt32) : Engine Unit :=
  (((shutting limit).register [⟨"box", .none, none⟩] (.runAhead fun
      | .ok () => .done none
      | .error f => .fail f)).1.register [⟨"lid", .none, none⟩]
    (.issue (.record { Record.blank with component := some "lid" }) fun t => .done (some t))).1

theorem shutting_honest (limit : UInt32) : (shutting limit).Honest := by
  intro rule body h
  match rule with
  | 0 =>
    obtain rfl := Option.some.inj h
    exact .issue _ fun t => .done _
  | _ + 1 => cases h

theorem reshutting_honest (limit : UInt32) : (reshutting limit).Honest := by
  intro rule body h
  match rule with
  | 0 =>
    obtain rfl := Option.some.inj h
    exact .issue _ fun t => .done _
  | 1 =>
    obtain rfl := Option.some.inj h
    exact .runAhead (fun f => .fail fun _ => List.mem_cons_self ..) (.done _)
  | 2 =>
    obtain rfl := Option.some.inj h
    exact .issue _ fun t => .done _
  | _ + 3 => cases h

/-- While a box is run ahead, it is replaced by a lid, and the lid by another one. The third look at
that place is one too many for the limit 2. -/
theorem expand_divergence_ahead :
    let x := (reshutting 2).expand 9 2 () (.record .box)
    (reshutting 2).Honest ∧ x.answer = .error (.failed (.divergence "lid" 2)) ∧
      (∃ number path earlier, earlier <:+ x.ledger.journal ∧ rewriteCount number path earlier = 2) ∧
      rewriteCount 1 [] x.ledger.journal = 2 ∧
      ∀ number path, rewriteCount number path x.ledger.journal ≤ 2 := by
  intro x
  have hx : x.answer = .error (.failed (.divergence "lid" 2)) :=
    Expansion.stop?_eq_some (by decide +kernel)
  obtain ⟨-, -, ⟨number, path, _, component, variant, part, earlier, hsuffix, -, hcount⟩, hmost⟩ :=
    expand_divergence (reshutting_honest 2) hx
  exact ⟨reshutting_honest 2, hx,
    ⟨number, path, earlier, (List.suffix_cons ..).trans hsuffix, hcount⟩, by decide +kernel, hmost⟩

/-- An engine whose rule makes up a failure of the guard. Its guard is on. -/
def crying : Engine Unit where
  rulebook := (({} : Rulebook Unit).register [⟨"box", .none, none⟩]
    (.fail (.divergence "box" 5))).1
  options := { divergenceGuard := true, divergenceLimit := 5 }

/-- A box that is replaced by a lid once, and is then done, is reported under the limit 1. And where
rules make up failures of the guard, one is reported although nothing was replaced. -/
theorem expand_divergence_covered :
    (¬ ∀ (e : Engine Unit) (fuel : Nat) (nextKey : Key) (root : Node) (label : String)
      (limit : UInt32), e.options.divergenceGuard = true → e.Honest →
        (e.expand fuel nextKey () root).answer = .error (.failed (.divergence label limit)) →
        ∃ number path,
          limit.toNat < rewriteCount number path (e.expand fuel nextKey () root).ledger.journal) ∧
    ¬ ∀ (e : Engine Unit) (fuel : Nat) (nextKey : Key) (root : Node) (label : String)
      (limit : UInt32), e.options.divergenceGuard = true →
        (e.expand fuel nextKey () root).answer = .error (.failed (.divergence label limit)) →
        ∃ number path,
          limit.toNat ≤ rewriteCount number path
            (e.expand fuel nextKey () root).ledger.journal := by
  refine ⟨fun h => ?_, fun h => ?_⟩
  · have hx : ((shutting 1).expand 9 2 () (.record .box)).answer =
        .error (.failed (.divergence "lid" 1)) := Expansion.stop?_eq_some (by decide +kernel)
    obtain ⟨number, path, hlt⟩ := h (shutting 1) 9 2 (.record .box) "lid" 1 rfl
      (shutting_honest 1) hx
    have hguards : (shutting 1).options.Guards := ⟨rfl, by decide⟩
    exact absurd (expand_capped hguards 9 2 () (.record .box) number path) (Nat.not_le_of_lt hlt)
  · have hx : (crying.expand 9 2 () (.record .box)).answer =
        .error (.failed (.divergence "box" 5)) := Expansion.stop?_eq_some (by decide +kernel)
    obtain ⟨number, path, hle⟩ := h crying 9 2 (.record .box) "box" 5 rfl hx
    have hjournal : (crying.expand 9 2 () (.record .box)).ledger.journal =
        [.started 0 [] 1 0 (.listed 0 1), .visited 0 [] 1 "box" none none] := by
      decide +kernel
    rw [hjournal] at hle
    exact Nat.not_succ_le_zero 4 hle

end Engine

end ComponentTree
