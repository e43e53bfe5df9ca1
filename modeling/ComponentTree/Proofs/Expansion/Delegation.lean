import ComponentTree.Proofs.Expansion.Again
import ComponentTree.Proofs.Expansion.Fixpoint

/-!
Rules that have the others run ahead.

A rule may do nothing but have the other rules of its record run ahead, and then put what has become
of the record in its place or answer with nothing (`RuleM.delegate`). If it is added to rules that
only decorate, it comes first, and the others run in a pass for the record alone. They leave the
record dressed as they do without it, and settled (`Delegated.runAhead`, `Delegated.applyRules`).
Main statement: with the added rule a pass does with a node what it does without it, or it replaces
a record by what it would have kept (`Decorates.does_withDelegate`).
-/

namespace ComponentTree

variable {σ : Type}

/-- A rule that has the other rules of its record run ahead, and then puts what has become of the
record in its place, or answers with nothing. -/
def RuleM.delegate (replaces : Bool) : RuleM σ (Option Node) :=
  .runAhead fun
    | .ok () => if replaces then .look fun c => .done (some c.tree) else .done none
    | .error f => .fail f

theorem RuleM.exec_delegate (idPrefix : String) {run : Pass → Run σ Pass} {c c' : Context}
    {w w' : World σ} (h : c.runAhead run w = (.ok c', w')) (replaces : Bool) :
    (delegate replaces).exec idPrefix run c w =
      (.ok (if replaces then some c'.tree else none, c'), w') := by
  rw [delegate, exec_runAhead, Run.attempt_apply, h]
  cases replaces <;> rfl

/-- The engine with such a rule for some selectors. -/
def Engine.withDelegate (e : Engine σ) (selectors : List Selector) (replaces : Bool) : Engine σ :=
  (e.register selectors (.delegate replaces)).1

/-- What the rules make of a record is the same at every position. -/
def Dressing.IgnoresPosition (f : Dressing) : Prop :=
  ∀ rule position position' r, f rule position r = f rule position' r

theorem Dressing.IgnoresPosition.dressAll {f : Dressing} (hf : f.IgnoresPosition)
    (position position' : Position) : ∀ (rules : List RuleId) (r : Record),
      r.dressAll f position rules = r.dressAll f position' rules
  | [], _ => rfl
  | rule :: rest, r => by
    have hdress : r.dress f rule position = r.dress f rule position' := by
      unfold Record.dress
      rw [hf rule position position']
    rw [Record.dressAll, Record.dressAll, hdress, dressAll hf position position' rest]

/-- What rules that decorate leave of a record is matched like the record. -/
theorem Record.follows_of_dressAll {f : Dressing} {position : Position} {rules : List RuleId}
    {r left : Record} (h : left.masked = (r.dressAll f position rules).masked)
    (hs : r.rendering.stopped = false) : left.Follows r := by
  obtain ⟨rendering, mixins, hdress⟩ := r.dressAll_eq f position rules
  rw [hdress] at h
  exact ⟨congrArg (·.key) h, congrArg (·.component) h, congrArg (·.variant) h,
    congrArg (·.part) h, fun hstopped => by rw [hs] at hstopped; cases hstopped⟩

namespace Engine

variable {e : Engine σ} {f : Dressing} {ss : List Selector} {replaces : Bool}
  {run : Pass → Run σ Pass} {pass : Pass} {site : Site} {w w' : World σ}

theorem withDelegate_body? (e : Engine σ) (ss : List Selector) (replaces : Bool) (rule : RuleId) :
    (e.withDelegate ss replaces).rulebook.body? rule =
      if rule = e.rulebook.rules.length then some (.delegate replaces)
      else e.rulebook.body? rule :=
  e.rulebook.body?_register ss _ rule

/-- The other rules do what they did. -/
theorem runRules_withDelegate {number : Nat} {key : Key} : ∀ {rules : List RuleId} (r : Record),
    (∀ rule ∈ rules, rule ≠ e.rulebook.rules.length) →
      (e.withDelegate ss replaces).runRules run number site key rules r =
        e.runRules run number site key rules r
  | [], _, _ => rfl
  | rule :: rest, r, h => by
    obtain ⟨hrule, hrest⟩ := List.forall_mem_cons.mp h
    have hbody := (e.withDelegate_body? ss replaces rule).trans (if_neg hrule)
    have hnext : ∀ r, (e.withDelegate ss replaces).runRules run number site key rest r =
        e.runRules run number site key rest r := fun r => runRules_withDelegate r hrest
    unfold runRules
    simp only [hbody, hnext]
    rfl

theorem withDelegate_refuses (hg : e.options.divergenceGuard = false) (ss : List Selector)
    (replaces : Bool) (rounds : Nat) :
    (e.withDelegate ss replaces).options.refuses rounds = false :=
  Options.refuses_of_off hg rounds

/-- A record whose rules have got the added one in front of them. -/
structure Delegated (e : Engine σ) (ss : List Selector) (r : Record) (component : String)
    (variant : Option String) (rules : List RuleId) : Prop where
  built : e.rulebook.Built
  stored : ∀ s ∈ ss, e.rulebook.stored s ≠ []
  component_eq : r.component = some component
  unstopped : r.rendering.stopped = false
  resolve : ∃ s ∈ ss, e.rulebook.resolve component variant r.part = some (s, rules)

namespace Delegated

variable {r : Record} {component : String} {variant : Option String} {rules : List RuleId}

theorem resolve_withDelegate (h : e.Delegated ss r component variant rules) (replaces : Bool) :
    ∃ s, (e.withDelegate ss replaces).rulebook.resolve component variant r.part =
      some (s, e.rulebook.rules.length :: rules) := by
  obtain ⟨s, hs, hres⟩ := h.resolve
  refine ⟨s, (h.built.resolve_register h.stored _ component variant r.part).trans ?_⟩
  rw [hres, Option.map_some, if_pos hs]

theorem dressed {owner : Owner} (h : e.Delegated ss r component owner.variant rules)
    (position : Position) : e.dressed f position owner r = r.dressAll f position rules := by
  obtain ⟨s, -, hres⟩ := h.resolve
  rw [Engine.dressed, h.component_eq]
  dsimp only
  rw [h.unstopped, if_neg Bool.false_ne_true, dressMatched, hres]

/-- When the added rule has been marked, the other rules have their turn. -/
theorem does (h : e.Delegated ss r component r.variant rules)
    (hg : e.options.divergenceGuard = false) (hf : e.Decorates f) (replaces : Bool) (fuel : Nat)
    (hn : pass.tree.at? site.path = some (.record r))
    (hr : e.resolveOwner r site.owner = (r, ⟨r.component, r.variant⟩))
    (hmarked : (r.key, e.rulebook.rules.length) ∈ w.ledger.marks)
    (hm : ∀ rule ∈ rules, (r.key, rule) ∉ w.ledger.marks) :
    ∃ left w', (e.withDelegate ss replaces).Does ((e.withDelegate ss replaces).runPass fuel)
        pass site w (.kept r left ⟨r.component, r.variant⟩) w' ∧
      left.masked = (r.dressAll f site.position rules).masked ∧
      ∀ x ∈ w'.ledger.marks, x ∈ w.ledger.marks ∨ x.1 = r.key := by
  obtain ⟨t, -, hres⟩ := h.resolve
  have hnodup := h.built.stored_nodup t
  rw [(Rulebook.resolve_eq_some hres).2] at hnodup
  obtain ⟨left, w', hrules, hleft, hmarks⟩ :=
    hf.runRules ((e.withDelegate ss replaces).runPass_zero_goesOn fuel) pass.number site.count r.key
      rules r (arrive pass site r ⟨r.component, r.variant⟩ component w) hnodup
      fun rule hrule => ⟨h.built.body?_isSome hres hrule, hm rule hrule⟩
  obtain ⟨s, hresolve⟩ := h.resolve_withDelegate replaces
  have hrefuses := withDelegate_refuses hg ss replaces site.count.rounds
  refine ⟨left, w', .kept hn hr h.component_eq hrefuses h.unstopped ?_, hleft, hmarks⟩
  have hskip : (r.key, e.rulebook.rules.length) ∈
      (arrive pass site r ⟨r.component, r.variant⟩ component w).ledger.marks := hmarked
  unfold applyRules
  rw [hresolve]
  dsimp only
  rw [runRules_of_mark hskip, runRules_withDelegate r (h.built.ne_of_resolve hres), hrules]

/-- A record that is run ahead gets what its other rules make of it, and is settled. -/
theorem runAhead (h : e.Delegated ss r component r.variant rules)
    (hg : e.options.divergenceGuard = false) (hf : e.Decorates f) (hr : e.Resolved r)
    (replaces : Bool) (fuel : Nat) (position : Position) (library : Library)
    (hmarked : (r.key, e.rulebook.rules.length) ∈ w.ledger.marks)
    (hm : ∀ rule ∈ rules, (r.key, rule) ∉ w.ledger.marks) :
    ∃ left w', Context.runAhead ((e.withDelegate ss replaces).runPass (fuel + 2))
        { record := r, position, library } w = (.ok { record := left, position, library }, w') ∧
      left.masked = (r.dressAll f (.listed 0 1) rules).masked ∧
      (e.withDelegate ss replaces).Settled left w' ∧
      ∀ x ∈ w'.ledger.marks, x ∈ w.ledger.marks ∨ x.1 = r.key := by
  let begun : Pass := .start w.ledger.passes ⟨r.component, none⟩ true (.record r)
  let site : Site := ⟨[], .listed 0 1, ⟨r.component, none⟩, 0⟩
  let w₀ : World σ := { w with ledger := { w.ledger with passes := w.ledger.passes + 1 } }
  have hq : begun.queue = [site] := rfl
  have hn : ({ begun with queue := [] } : Pass).tree.at? site.path = some (.record r) :=
    Node.at?_nil _
  obtain ⟨left, w', hd, hleft, hmarks⟩ := h.does (w := w₀) hg hf replaces (fuel + 1) hn
    (resolveOwner_own hr (by rw [h.component_eq]; rfl) (Or.inl rfl)) hmarked hm
  -- content is left alone, so the pass is done when it has looked at the record
  have hrun := (runPass_goes_on hq hd.step_eq).trans (runPass_done rfl fuel w')
  have htree : (Pass.after { begun with queue := [] } site
      (.kept r left ⟨r.component, r.variant⟩)).tree = .record left := by
    rw [Pass.after_kept_tree, Node.put_nil]
    rfl
  refine ⟨left, w', ?_, hleft,
    hd.kept_settled ((e.withDelegate ss replaces).carries_tracked _), hmarks⟩
  rw [Context.runAhead_apply, hrun]
  dsimp only
  rw [Context.settle_of_key htree (hd.key rfl)]

/-- The added rule answers with what has become of the record when the others have run, or with
nothing. -/
theorem runBody (h : e.Delegated ss r component r.variant rules)
    (hg : e.options.divergenceGuard = false) (hf : e.Decorates f) (hr : e.Resolved r)
    (replaces : Bool) (fuel : Nat) (position : Position)
    (hmarked : (r.key, e.rulebook.rules.length) ∈ w.ledger.marks)
    (hm : ∀ rule ∈ rules, (r.key, rule) ∉ w.ledger.marks) :
    ∃ left c w', (e.withDelegate ss replaces).runBody
        ((e.withDelegate ss replaces).runPass (fuel + 2)) (.delegate replaces) position r w =
          (.ok (if replaces then some (.record left) else none, c), w') ∧ c.record = left ∧
      left.masked = (r.dressAll f (.listed 0 1) rules).masked ∧
      (e.withDelegate ss replaces).Settled left w' ∧
      ∀ x ∈ w'.ledger.marks, x ∈ w.ledger.marks ∨ x.1 = r.key := by
  obtain ⟨left, w', hahead, hleft, hsettled, hmarks⟩ :=
    h.runAhead hg hf hr replaces fuel position e.library hmarked hm
  have htree : Context.tree { record := left, position, library := e.library } = .record left :=
    congrArg Node.record left.snapshot_eq
  have hanswer := RuleM.exec_delegate e.options.idPrefix hahead replaces
  rw [htree] at hanswer
  exact ⟨left, _, w', hanswer, rfl, hleft, hsettled, hmarks⟩

/-- The rules of the record leave it dressed and settled. The first of them, which was added, keeps
it or puts it in its own place again. -/
theorem applyRules (h : e.Delegated ss r component r.variant rules)
    (hg : e.options.divergenceGuard = false) (hf : e.Decorates f) (hp : f.IgnoresPosition)
    (hr : e.Resolved r) (replaces : Bool) (fuel number : Nat) (site : Site)
    (hm : ∀ rule, (r.key, rule) ∉ w.ledger.marks) :
    ∃ left w', (e.withDelegate ss replaces).applyRules
        ((e.withDelegate ss replaces).runPass (fuel + 2)) number site r component r.variant w =
          (.ok (if replaces then .replaced left (.record left) else .kept left), w') ∧
      left.masked = (r.dressAll f site.position rules).masked ∧
      (e.withDelegate ss replaces).Settled left w' ∧
      ∀ x ∈ w'.ledger.marks, x ∈ w.ledger.marks ∨ x.1 = r.key := by
  obtain ⟨t, -, hres⟩ := h.resolve
  have hmarked : ∀ rule ∈ rules, (r.key, rule) ∉
      (r.key, e.rulebook.rules.length) :: w.ledger.marks := by
    intro rule hrule hmem
    rcases List.mem_cons.mp hmem with heq | hmem
    · exact h.built.ne_of_resolve hres rule hrule (Prod.mk.inj heq).2
    · exact hm rule hmem
  obtain ⟨left, c, w', hanswer, hc, hleft, hsettled, hmarks⟩ := h.runBody hg hf hr replaces fuel
    site.position (w := (w.mark r.key e.rulebook.rules.length).log
      (.started number site.path r.key e.rulebook.rules.length site.position))
    (List.mem_cons_self ..) hmarked
  have hkey : ∀ x ∈ w'.ledger.marks, x ∈ w.ledger.marks ∨ x.1 = r.key := by
    intro x hx
    rcases hmarks x hx with hx | hx
    · exact (List.mem_cons.mp hx).elim (fun heq => Or.inr (heq ▸ rfl)) Or.inl
    · exact Or.inr hx
  rw [hp.dressAll (.listed 0 1) site.position] at hleft
  obtain ⟨s, hresolve⟩ := h.resolve_withDelegate replaces
  have hbody := (e.withDelegate_body? ss replaces e.rulebook.rules.length).trans (if_pos rfl)
  unfold Engine.applyRules
  rw [hresolve]
  dsimp only
  rw [runRules_of_body (hm _) hbody, Run.bind_apply, hanswer]
  subst hc
  cases replaces with
  | true => exact ⟨c.record, _, rfl, hleft, hsettled, hkey⟩
  | false =>
    refine ⟨c.record, w', ?_, hleft, hsettled, hkey⟩
    simp only [proceed, replacement?, Bool.false_eq_true, if_false]
    split
    · rfl
    · -- the others have been marked, since none of them has stopped the record
      rename_i hstopped
      have hfollows := Record.follows_of_dressAll hleft h.unstopped
      have hmarks := hsettled.resolve_left hstopped component s (_ :: rules)
        (hfollows.component.trans h.component_eq)
        (by rw [hfollows.variant, hfollows.part]; exact hresolve)
      rw [hfollows.key] at hmarks
      exact runRules_of_marks (List.forall_mem_cons.mp hmarks).2

end Delegated

variable (hb : e.rulebook.Built) (hss : ∀ s ∈ ss, e.rulebook.stored s ≠ [])

include hb hss in
/-- Rules do what they did if the added one is not among them. -/
theorem applyRules_withDelegate {number : Nat} {r : Record} {component : String}
    {variant : Option String} (hc : r.component = some component)
    (hs : r.rendering.stopped = false)
    (hnot : ∀ rules, ¬ e.Delegated ss r component variant rules) :
    (e.withDelegate ss replaces).applyRules run number site r component variant =
      e.applyRules run number site r component variant := by
  have hresolve : (e.withDelegate ss replaces).rulebook.resolve component variant r.part = _ :=
    hb.resolve_register hss _ component variant r.part
  unfold applyRules
  rw [hresolve]
  cases hres : e.rulebook.resolve component variant r.part with
  | none => rfl
  | some found =>
    have hmem : found.1 ∉ ss := fun hmem => hnot found.2 ⟨hb, hss, hc, hs, found.1, hmem, hres⟩
    rw [Option.map_some, if_neg hmem]
    exact runRules_withDelegate r (hb.ne_of_resolve hres)

include hb hss in
/-- A deed at a record that does not get the added rule is the same with it. -/
theorem Does.withDelegate {deed : Deed} (h : e.Does run pass site w deed w')
    (hnot : ∀ found r owner component rules, pass.tree.at? site.path = some (.record found) →
      e.resolveOwner found site.owner = (r, owner) →
        ¬ e.Delegated ss r component owner.variant rules) :
    (e.withDelegate ss replaces).Does run pass site w deed w' := by
  cases h with
  | missed h => exact .missed h
  | opened h => exact .opened h
  | passed h hn => exact .passed h hn
  | plain h hr hc => exact .plain h hr hc
  | stopped h hr hc hg hs => exact .stopped h hr hc hg hs
  | kept h hr hc hg hs hv =>
    refine .kept h hr hc hg hs ?_
    rw [applyRules_withDelegate hb hss hc hs fun rules => hnot _ _ _ _ rules h hr]
    exact hv
  | replaced h hr hc hg hs hv =>
    refine .replaced h hr hc hg hs ?_
    rw [applyRules_withDelegate hb hss hc hs fun rules => hnot _ _ _ _ rules h hr]
    exact hv

/-- What a pass does with a node that comes up for the first time: what it does if rules only
decorate, or it puts the record, dressed and settled, in its own place again. -/
inductive Handles (e : Engine σ) (f : Dressing) (ss : List Selector) (replaces : Bool) (site : Site)
    (w : World σ) : Node → Deed → Prop
  | plain {node : Node} {deed : Deed} (h : e.Plain f site node deed) :
      Handles e f ss replaces site w node deed
  | again {found left : Record} {owner : Owner}
      (h : e.Plain f site (.record found) (.kept found left owner))
      (hr : e.resolveOwner left owner = (left, owner))
      (hs : (e.withDelegate ss replaces).Settled left w) :
      Handles e f ss replaces site w (.record found) (.replaced found left (.record left) owner)

include hb hss in
/-- With the added rule, a pass does with a node that comes up for the first time what it does
without it, or it puts the record that it would have kept in its own place again. -/
theorem Decorates.does_withDelegate (hf : e.Decorates f) (hg : e.options.divergenceGuard = false)
    (hp : f.IgnoresPosition) (replaces : Bool) (fuel : Nat) {node : Node}
    (hn : pass.tree.at? site.path = some node)
    (hm : ∀ r, node = .record r → ∀ rule, (r.key, rule) ∉ w.ledger.marks) :
    ∃ deed w', (e.withDelegate ss replaces).Does
        ((e.withDelegate ss replaces).runPass (fuel + 2)) pass site w deed w' ∧
      e.Handles f ss replaces site w' node deed ∧
      ∀ x ∈ w'.ledger.marks, x ∈ w.ledger.marks ∨ ∃ r, node = .record r ∧ x.1 = r.key := by
  by_cases hdelegated : ∃ found r owner component rules, node = .record found ∧
      e.resolveOwner found site.owner = (r, owner) ∧
        e.Delegated ss r component owner.variant rules
  · obtain ⟨found, r, owner, component, rules, rfl, hr, h⟩ := hdelegated
    have hresolved := e.resolveOwner_resolved found site.owner
    have hkey := e.resolveOwner_key found site.owner
    rw [hr] at hresolved hkey
    have hisSome : r.component.isSome := by rw [h.component_eq]; rfl
    obtain rfl := resolveOwner_owner hr hisSome
    obtain ⟨left, w', hv, hleft, hsettled, hmarks⟩ := h.applyRules hg hf hp hresolved replaces fuel
      pass.number site.count (w := arrive pass site r ⟨r.component, r.variant⟩ component w)
      (hkey ▸ hm found rfl)
    have hrefuses := withDelegate_refuses hg ss replaces site.count.rounds
    have hfollows := Record.follows_of_dressAll hleft h.unstopped
    have howner : e.resolveOwner left ⟨r.component, r.variant⟩ =
        (left, ⟨r.component, r.variant⟩) := by
      rw [← hfollows.component, ← hfollows.variant]
      exact resolveOwner_own (hresolved.follows hfollows) (hfollows.component ▸ hisSome)
        (Or.inr rfl)
    have hplain : e.Plain f site (.record found) (.kept found left ⟨r.component, r.variant⟩) :=
      .kept hr (by rw [h.dressed]; exact hleft)
    have hmarks' : ∀ x ∈ w'.ledger.marks, x ∈ w.ledger.marks ∨
        ∃ r', Node.record found = .record r' ∧ x.1 = r'.key :=
      fun x hx => (hmarks x hx).imp id fun hx => ⟨found, rfl, hx.trans hkey⟩
    cases replaces with
    | true =>
      exact ⟨_, w', .replaced hn hr h.component_eq hrefuses h.unstopped hv,
        .again hplain howner hsettled, hmarks'⟩
    | false =>
      exact ⟨_, w', .kept hn hr h.component_eq hrefuses h.unstopped hv, .plain hplain, hmarks'⟩
  · obtain ⟨deed, w', hd, hplain, hmarks⟩ := hf.does hb hg
      ((e.withDelegate ss replaces).runPass_zero_goesOn (fuel + 2)) pass hn hm
    refine ⟨deed, w', hd.withDelegate hb hss ?_, .plain hplain, hmarks⟩
    intro found r owner component rules hn' hr h
    rw [hn, Option.some.injEq] at hn'
    exact hdelegated ⟨found, r, owner, component, rules, hn', hr, h⟩

end Engine

end ComponentTree
