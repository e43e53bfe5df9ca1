import ComponentTree.Proofs.Expansion.Moves
import ComponentTree.Proofs.Rule.Renaming

/-!
Expansions that differ in identities.

Two worlds go side by side if they hold the same but for identities, and their counters will give
out related identities from now on (`World.Renamed`). Two runs are renamed to each other if in such
worlds they both fail in the same way or give related answers, and leave such worlds
(`Run.Renamed`). Programs that are renamed to each other run so, and if the rules of an engine are
blind to identities, so do its lists of rules, its steps, and its passes (`renamed_runPass`).
Whether a rule was marked and whether a record is the one that a pass began with is asked for by
comparing identities, so here related identities have to be one to one.
-/

namespace ComponentTree

variable {σ α β α' β' : Type}

/-! ### Worlds side by side -/

/-- The events are the same but for identities. -/
inductive Event.Renamed (keys : Key → Key → Prop) : Event → Event → Prop
  | visited (pass : Nat) (path : Path) {key key' : Key} (h : keys key key') (component : String)
      (variant part : Option String) :
      Renamed keys (.visited pass path key component variant part)
        (.visited pass path key' component variant part)
  | started (pass : Nat) (path : Path) {key key' : Key} (h : keys key key') (rule : RuleId)
      (position : Position) :
      Renamed keys (.started pass path key rule position) (.started pass path key' rule position)
  | replaced (pass : Nat) (path : Path) {key key' : Key} (h : keys key key') (rule : RuleId) :
      Renamed keys (.replaced pass path key rule) (.replaced pass path key' rule)
  | identified (id : String) : Renamed keys (.identified id) (.identified id)

/-- The ledgers are the same but for identities. -/
structure Ledger.Renamed (keys : Key → Key → Prop) (l l' : Ledger) : Prop where
  marks : List.Forall₂ (fun x x' => keys x.1 x'.1 ∧ x.2 = x'.2) l.marks l'.marks
  passes : l.passes = l'.passes
  journal : List.Forall₂ (Event.Renamed keys) l.journal l'.journal

/-- The worlds are the same but for identities, and so are those that will be given out. -/
structure World.Renamed (M : Renaming σ) (w w' : World σ) : Prop where
  nextKey : Abreast M.keys w.nextKey w'.nextKey
  nextId : M.ids → w.nextId = w'.nextId
  memory : M.memory w.memory w'.memory
  ledger : w.ledger.Renamed M.keys w'.ledger

/-- Both fail in the same way, or both give answers, and these are related. -/
inductive SameOutcome {ε : Type} (R : α → β → Prop) : Except ε α → Except ε β → Prop
  | ok {a : α} {b : β} (h : R a b) : SameOutcome R (.ok a) (.ok b)
  | error (e : ε) : SameOutcome R (.error e) (.error e)

/-- From worlds side by side the runs come to the same outcome, and to worlds side by side. -/
def Run.Renamed (M : Renaming σ) (R : α → β → Prop) (x : Run σ α) (y : Run σ β) : Prop :=
  ∀ w w', w.Renamed M w' → SameOutcome R (x w).1 (y w').1 ∧ (x w).2.Renamed M (y w').2

variable {M : Renaming σ}

theorem eq_iff_of_related {keys : Key → Key → Prop} (hunique : Relator.BiUnique keys)
    {a a' b b' : Key} (ha : keys a a') (hb : keys b b') : a = b ↔ a' = b' := by
  constructor
  · rintro rfl
    exact hunique.2 ha hb
  · rintro rfl
    exact hunique.1 ha hb

theorem some_eq_iff_of_related {keys : Key → Key → Prop} (hunique : Relator.BiUnique keys)
    {a a' : Key} {x x' : Option Key} (ha : keys a a') (hx : Option.Rel keys x x') :
    some a = x ↔ some a' = x' := by
  cases hx with
  | none => exact ⟨nofun, nofun⟩
  | some hb => rw [Option.some.injEq, Option.some.injEq, eq_iff_of_related hunique ha hb]

namespace Run

variable {R : α → β → Prop} {S : α' → β' → Prop}

theorem Renamed.pure {a : α} {b : β} (h : R a b) :
    Renamed M R (Pure.pure a : Run σ α) (Pure.pure b) :=
  fun _ _ hw => ⟨.ok h, hw⟩

theorem renamed_throw (s : Stop) : Renamed M R (throw s : Run σ α) (throw s) :=
  fun _ _ hw => ⟨.error s, hw⟩

theorem Renamed.bind {x : Run σ α} {y : Run σ β} {f : α → Run σ α'} {g : β → Run σ β'}
    (hx : Renamed M R x y) (hf : ∀ a b, R a b → Renamed M S (f a) (g b)) :
    Renamed M S (x >>= f) (y >>= g) := by
  intro w w' hw
  obtain ⟨hanswer, hworld⟩ := hx w w' hw
  rw [bind_apply, bind_apply]
  rcases hxw : x w with ⟨answer, u⟩
  rcases hyw : y w' with ⟨answer', u'⟩
  rw [hxw, hyw] at hanswer hworld
  cases hanswer with
  | ok h => exact hf _ _ h _ _ hworld
  | error s => exact ⟨.error s, hworld⟩

theorem Renamed.attempt {x : Run σ α} {y : Run σ β} (hx : Renamed M R x y) :
    Renamed M (SameOutcome R) (attempt x) (attempt y) := by
  intro w w' hw
  obtain ⟨hanswer, hworld⟩ := hx w w' hw
  rw [attempt_apply, attempt_apply]
  rcases hxw : x w with ⟨answer, u⟩
  rcases hyw : y w' with ⟨answer', u'⟩
  rw [hxw, hyw] at hanswer hworld
  cases hanswer with
  | ok h => exact ⟨.ok (.ok h), hworld⟩
  | error s =>
    cases s with
    | failed e => exact ⟨.ok (.error e), hworld⟩
    | exhausted => exact ⟨.error Stop.exhausted, hworld⟩

theorem renamed_log {x x' : Event} (h : x.Renamed M.keys x') :
    Renamed M (fun _ _ => True) (log x : Run σ Unit) (log x') := by
  intro w w' hw
  exact ⟨.ok trivial, { hw with ledger := { hw.ledger with journal := .cons h hw.ledger.journal } }⟩

/-- Related identities are marked alike. -/
theorem mem_marks_iff (hunique : Relator.BiUnique M.keys) {w w' : World σ} (hw : w.Renamed M w')
    {key key' : Key} (hkey : M.keys key key') (rule : RuleId) :
    (key, rule) ∈ w.ledger.marks ↔ (key', rule) ∈ w'.ledger.marks := by
  refine List.rel_mem ⟨?_, ?_⟩ ⟨hkey, rfl⟩ hw.ledger.marks
  · rintro ⟨a, i⟩ ⟨b, j⟩ ⟨c, k⟩ ⟨hac, rfl⟩ ⟨hbc, rfl⟩
    exact Prod.ext (hunique.1 hac hbc) rfl
  · rintro ⟨a, i⟩ ⟨b, j⟩ ⟨c, k⟩ ⟨hab, rfl⟩ ⟨hac, rfl⟩
    exact Prod.ext (hunique.2 hab hac) rfl

theorem renamed_mark (hunique : Relator.BiUnique M.keys) {key key' : Key}
    (hkey : M.keys key key') (rule : RuleId) :
    Renamed M Eq (mark key rule : Run σ Bool) (mark key' rule) := by
  intro w w' hw
  rw [mark_apply, mark_apply]
  by_cases h : (key, rule) ∈ w.ledger.marks
  · rw [if_pos h, if_pos ((mem_marks_iff hunique hw hkey rule).mp h)]
    exact ⟨.ok rfl, hw⟩
  · rw [if_neg h, if_neg fun h' => h ((mem_marks_iff hunique hw hkey rule).mpr h')]
    exact ⟨.ok rfl,
      { hw with ledger := { hw.ledger with marks := .cons ⟨hkey, rfl⟩ hw.ledger.marks } }⟩

theorem renamed_beginPass : Renamed M Eq (beginPass : Run σ Nat) beginPass := by
  intro w w' hw
  have hpasses := hw.ledger.passes
  exact ⟨.ok hpasses,
    { hw with ledger := { hw.ledger with passes := congrArg (· + 1) hpasses } }⟩

theorem renamed_fresh {t t' : Node} (hsame : t.anonymous = t'.anonymous) :
    Renamed M (fun copy copy' => copy.anonymous = t.anonymous ∧ copy.Renamed M.keys copy')
      (fresh t : Run σ Node) (fresh t') := by
  intro w w' hw
  obtain ⟨hcopy, hnext⟩ := Node.renamed_reissue hsame hw.nextKey
  exact ⟨.ok ⟨(t.reissue_spec w.nextKey).1, hcopy⟩, { hw with nextKey := hnext }⟩

theorem renamed_freshId (hids : M.ids) (idPrefix : String) :
    Renamed M Eq (freshId idPrefix : Run σ String) (freshId idPrefix) := by
  intro w w' hw
  have hid := hw.nextId hids
  have hevent : (Event.identified (idPrefix ++ toString w.nextId.toNat)).Renamed M.keys
      (.identified (idPrefix ++ toString w'.nextId.toNat)) := by
    rw [hid]
    exact .identified _
  refine ⟨.ok (congrArg (fun n : UInt64 => idPrefix ++ toString n.toNat) hid), ?_⟩
  exact { hw with
    nextId := fun _ => congrArg (· + 1) hid
    ledger := { hw.ledger with journal := .cons hevent hw.ledger.journal } }

end Run

/-! ### Passes side by side -/

/-- The passes are the same but for identities. -/
structure Pass.Renamed (keys : Key → Key → Prop) (pass pass' : Pass) : Prop where
  number : pass.number = pass'.number
  tree : pass.tree.Renamed keys pass'.tree
  queue : pass.queue = pass'.queue
  rootKey : Option.Rel keys pass.rootKey pass'.rootKey
  rootOnly : pass.rootOnly = pass'.rootOnly
  formerRoot : Option.Rel (Record.Renamed keys) pass.formerRoot pass'.formerRoot

/-- The verdicts are the same but for identities. -/
inductive Verdict.Renamed (keys : Key → Key → Prop) : Verdict → Verdict → Prop
  | kept {r r' : Record} (h : r.Renamed keys r') : Renamed keys (.kept r) (.kept r')
  | replaced {r r' : Record} {t t' : Node} (h : r.Renamed keys r') (ht : t.Renamed keys t') :
    Renamed keys (.replaced r t) (.replaced r' t')

variable {keys : Key → Key → Prop} {pass pass' : Pass} {r r' : Record}

namespace Pass

theorem renamed_start (number : Nat) (owner : Owner) (rootOnly : Bool) {t t' : Node}
    (h : t.Renamed keys t') :
    (start number owner rootOnly t).Renamed keys (start number owner rootOnly t') :=
  ⟨rfl, h, rfl, rel_map h.record? fun _ _ hr => hr.key, rfl, .none⟩

theorem Renamed.put (h : pass.Renamed keys pass') {n n' : Node} (hn : n.Renamed keys n')
    (path : Path) : (pass.put path n).Renamed keys (pass'.put path n') :=
  { h with tree := Node.Renamed.put hn path h.tree }

theorem Renamed.enqueue (h : pass.Renamed keys pass') (sites : List Site) :
    (pass.enqueue sites).Renamed keys (pass'.enqueue sites) :=
  { h with queue := congrArg (· ++ sites) h.queue }

theorem Renamed.keep (h : pass.Renamed keys pass') (site : Site) (hr : r.Renamed keys r')
    (owner : Owner) : (pass.keep site r owner).Renamed keys (pass'.keep site r' owner) := by
  have hflat := hr.content.flattenContent
  unfold Pass.keep
  rw [h.rootOnly]
  split
  · exact h.put (Node.renamed_record.mpr hr) site.path
  · dsimp only
    rw [Site.ofContent_of_renamed hflat]
    refine (h.put (Node.renamed_record.mpr ?_) site.path).enqueue _
    exact { hr with fields := by rw [hr.fields], content := hflat }

theorem Renamed.replace (hunique : Relator.BiUnique keys) (h : pass.Renamed keys pass')
    (site : Site) (hr : r.Renamed keys r') {n n' : Node} (hn : n.Renamed keys n') (owner : Owner) :
    (pass.replace site r n owner).Renamed keys (pass'.replace site r' n' owner) := by
  have hkey := some_eq_iff_of_related hunique hr.key h.rootKey
  have hnone := rel_isNone h.formerRoot
  have hformer : Option.Rel (Record.Renamed keys)
      (if pass.formerRoot.isNone && some r.key = pass.rootKey then some r else pass.formerRoot)
      (if pass'.formerRoot.isNone && some r'.key = pass'.rootKey then some r'
        else pass'.formerRoot) := by
    simp only [hnone, hkey]
    split
    · exact .some hr
    · exact h.formerRoot
  unfold Pass.replace
  refine Renamed.enqueue (Renamed.put ?_ hn site.path) _
  exact ⟨h.number, h.tree, h.queue, h.rootKey, h.rootOnly, hformer⟩

end Pass

/-- After a pass over the record alone the contexts are the same but for identities again. -/
theorem Context.Renamed.settle (hunique : Relator.BiUnique keys) {c c' : Context}
    (hc : c.Renamed keys c') (h : pass.Renamed keys pass') :
    (c.settle pass).Renamed keys (c'.settle pass') := by
  have hreplaced : Context.Renamed keys
      { c with record := pass.formerRoot.getD c.record, replacedBy := some pass.tree }
      { c' with record := pass'.formerRoot.getD c'.record, replacedBy := some pass'.tree } :=
    { hc with record := rel_getD h.formerRoot hc.record, replacedBy := .some h.tree }
  unfold Context.settle
  rcases h.tree.cases with ⟨_, _, ht, ht', -⟩ | ⟨r, r', ht, ht', hr⟩ | ⟨ht, hn⟩
  · rw [ht, ht'] at hreplaced ⊢
    exact hreplaced
  · rw [ht, ht'] at hreplaced ⊢
    simp only [eq_iff_of_related hunique hr.key hc.record.key]
    split
    · exact { hc with record := hr, replacedBy := .none }
    · exact hreplaced
  · rw [ht] at hreplaced hn ⊢
    cases htree : pass'.tree with
    | record => rw [htree] at hn; cases hn
    | _ => rw [htree] at hreplaced; exact hreplaced

/-! ### Runs side by side -/

/-- Passes that are the same but for identities run in the same way. -/
def Run.Passes (M : Renaming σ) (run : Pass → Run σ Pass) : Prop :=
  ∀ pass pass', pass.Renamed M.keys pass' →
    Run.Renamed M (Pass.Renamed M.keys) (run pass) (run pass')

theorem Context.renamed_runAhead (hunique : Relator.BiUnique M.keys) {run : Pass → Run σ Pass}
    (hrun : Run.Passes M run) {c c' : Context} (hc : c.Renamed M.keys c') :
    Run.Renamed M (Context.Renamed M.keys) (c.runAhead run) (c'.runAhead run) := by
  unfold Context.runAhead
  rw [Record.snapshot_eq, Record.snapshot_eq, hc.record.component_eq]
  refine Run.renamed_beginPass.bind fun number _ hnumber => ?_
  subst hnumber
  refine (hrun _ _ (Pass.renamed_start _ _ _ (Node.renamed_record.mpr hc.record))).bind ?_
  exact fun _ _ hpass => .pure (hc.settle hunique hpass)

/-- Renamed programs run in the same way. -/
theorem RuleM.Renamed.exec (hunique : Relator.BiUnique M.keys) {run : Pass → Run σ Pass}
    (hrun : Run.Passes M run) (idPrefix : String) {R : α → β → Prop} {x : RuleM σ α}
    {x' : RuleM σ β} (h : x.Renamed M R x') : ∀ {c c' : Context}, c.Renamed M.keys c' →
      Run.Renamed M (fun p p' => R p.1 p'.1 ∧ p.2.Renamed M.keys p'.2)
        (x.exec idPrefix run c) (x'.exec idPrefix run c') := by
  induction h with
  | done ha => exact fun hc => .pure ⟨ha, hc⟩
  | fail failure => exact fun _ => Run.renamed_throw _
  | look _ ih => exact fun hc => ih _ _ hc hc
  | write hw _ ih => exact fun hc => ih (hc.write hw)
  | generateId hids _ ih =>
    refine fun hc => (Run.renamed_freshId hids idPrefix).bind fun id _ hid => ?_
    subst hid
    exact ih id hc
  | issue hsame _ ih =>
    exact fun hc => (Run.renamed_fresh hsame).bind fun copy copy' hcopy =>
      ih copy copy' hcopy.1 hcopy.2 hc
  | runAhead _ ih =>
    intro c c' hc
    unfold RuleM.exec
    refine (Context.renamed_runAhead hunique hrun hc).attempt.bind ?_
    intro outcome outcome' houtcome
    cases houtcome with
    | ok hc' => exact ih _ hc'
    | error e => exact ih _ hc
  | «recall» _ ih =>
    intro c c' hc w w' hw
    exact ih _ _ hw.memory hc w w' hw
  | remember hm _ ih =>
    intro c c' hc w w' hw
    exact ih hc _ _ { hw with memory := hm }

namespace Engine

variable {e : Engine σ} {run : Pass → Run σ Pass}

/-- The rules of the engine are renamed to themselves. -/
def Respects (e : Engine σ) (M : Renaming σ) : Prop :=
  ∀ rule body, e.rulebook.body? rule = some body →
    body.Renamed M (Option.Rel (Node.Renamed M.keys)) body

theorem renamed_replacement? {answer answer' : Option Node}
    (h : Option.Rel (Node.Renamed keys) answer answer') :
    Option.Rel (Node.Renamed keys) (replacement? answer) (replacement? answer') := by
  cases h with
  | none => exact .none
  | some ht =>
    unfold replacement?
    dsimp only
    rw [ht.isAbsent]
    split
    · exact .none
    · exact .some ht

theorem renamed_runBody (hunique : Relator.BiUnique M.keys) (hrun : Run.Passes M run)
    {body : RuleM σ (Option Node)} (hbody : body.Renamed M (Option.Rel (Node.Renamed M.keys)) body)
    (position : Position) {r r' : Record} (hr : r.Renamed M.keys r') :
    Run.Renamed M
      (fun p p' => Option.Rel (Node.Renamed M.keys) p.1 p'.1 ∧ p.2.Renamed M.keys p'.2)
      (e.runBody run body position r) (e.runBody run body position r') :=
  hbody.exec hunique hrun e.options.idPrefix ⟨hr, rfl, .none, rfl⟩

theorem renamed_runRules (hunique : Relator.BiUnique M.keys) (he : e.Respects M)
    (hrun : Run.Passes M run) (pass : Nat) (site : Site) {key key' : Key} (hkey : M.keys key key') :
    ∀ (rules : List RuleId) {r r' : Record}, r.Renamed M.keys r' →
      Run.Renamed M (Verdict.Renamed M.keys) (e.runRules run pass site key rules r)
        (e.runRules run pass site key' rules r')
  | [], _, _, hr => .pure (.kept hr)
  | rule :: rest, r, r', hr => by
    have hrest : ∀ {r r' : Record}, r.Renamed M.keys r' → _ :=
      renamed_runRules hunique he hrun pass site hkey rest
    unfold Engine.runRules
    refine (Run.renamed_mark hunique hkey rule).bind fun marked _ hmarked => ?_
    subst hmarked
    cases marked with
    | false => exact hrest hr
    | true =>
      simp only [if_true]
      cases hbody : e.rulebook.body? rule with
      | none => exact hrest hr
      | some body =>
        have hstarted := Event.Renamed.started pass site.path hkey rule site.position
        refine (Run.renamed_log hstarted).bind fun _ _ _ => ?_
        refine (renamed_runBody hunique hrun (he rule body hbody) site.position hr).bind ?_
        rintro ⟨answer, c⟩ ⟨answer', c'⟩ ⟨hanswer, hc⟩
        dsimp only at hanswer hc ⊢
        have hreplacement := renamed_replacement? hanswer
        generalize replacement? answer = replacement at hreplacement ⊢
        generalize replacement? answer' = replacement' at hreplacement ⊢
        cases hreplacement with
        | some ht =>
          refine (Run.renamed_log (.replaced pass site.path hkey rule)).bind fun _ _ _ => ?_
          exact .pure (.replaced hc.record ht)
        | none =>
          dsimp only
          rw [hc.record.rendering_eq]
          split
          · exact .pure (.kept hc.record)
          · exact hrest hc.record

theorem renamed_applyRules (hunique : Relator.BiUnique M.keys) (he : e.Respects M)
    (hrun : Run.Passes M run) (pass : Nat) (site : Site) {r r' : Record}
    (hr : r.Renamed M.keys r') (component : String) (variant : Option String) :
    Run.Renamed M (Verdict.Renamed M.keys) (e.applyRules run pass site r component variant)
      (e.applyRules run pass site r' component variant) := by
  unfold applyRules
  rw [hr.part_eq]
  split
  · exact .pure (.kept hr)
  · exact renamed_runRules hunique he hrun pass site hr.key _ hr

/-- Owners are settled without regard to identities. -/
theorem renamed_resolveOwner {r r' : Record} (hr : r.Renamed keys r') (owner : Owner) :
    (e.resolveOwner r owner).1.Renamed keys (e.resolveOwner r' owner).1 ∧
      (e.resolveOwner r owner).2 = (e.resolveOwner r' owner).2 := by
  unfold resolveOwner
  rw [hr.part_eq, hr.component_eq, hr.variant_eq]
  split
  · exact ⟨{ hr with fields := by rw [hr.fields] }, rfl⟩
  · split
    · exact ⟨{ hr with fields := by rw [hr.fields] }, rfl⟩
    · exact ⟨hr, rfl⟩

theorem renamed_visit (hunique : Relator.BiUnique M.keys) (he : e.Respects M)
    (hrun : Run.Passes M run) {pass pass' : Pass} (hpass : pass.Renamed M.keys pass') (site : Site)
    {r r' : Record} (hr : r.Renamed M.keys r') :
    Run.Renamed M (Pass.Renamed M.keys) (e.visit run pass site r) (e.visit run pass' site r') := by
  obtain ⟨hresolved, howner⟩ := e.renamed_resolveOwner hr site.owner
  unfold visit
  rcases hres : e.resolveOwner r site.owner with ⟨r, owner⟩
  rcases hres' : e.resolveOwner r' site.owner with ⟨r', owner'⟩
  rw [hres, hres'] at hresolved howner
  dsimp only at hresolved howner ⊢
  subst howner
  rw [hresolved.component_eq, hresolved.part_eq, hresolved.rendering_eq, ← hpass.number]
  cases r.component with
  | none => exact .pure (hpass.keep site hresolved owner)
  | some component =>
    refine (Run.renamed_log (.visited _ _ hresolved.key _ _ _)).bind fun _ _ _ => ?_
    split
    · exact Run.renamed_throw _
    · split
      · exact .pure (hpass.keep _ hresolved owner)
      · refine (renamed_applyRules hunique he hrun _ _ hresolved _ _).bind fun _ _ hverdict => ?_
        cases hverdict with
        | kept h => exact .pure (hpass.keep _ h owner)
        | replaced h ht => exact .pure (hpass.replace hunique _ h ht owner)

theorem renamed_step (hunique : Relator.BiUnique M.keys) (he : e.Respects M)
    (hrun : Run.Passes M run) {pass pass' : Pass} (hpass : pass.Renamed M.keys pass')
    (site : Site) :
    Run.Renamed M (Pass.Renamed M.keys) (e.step run pass site) (e.step run pass' site) := by
  have hfound := hpass.tree.at? site.path
  unfold step
  generalize pass.tree.at? site.path = found at hfound ⊢
  generalize pass'.tree.at? site.path = found' at hfound ⊢
  cases hfound with
  | none => exact .pure hpass
  | some hn =>
    rcases hn.cases with ⟨_, _, rfl, rfl, hitems⟩ | ⟨_, _, rfl, rfl, hr⟩ | ⟨rfl, hscalar⟩
    · dsimp only
      rw [Site.ofItems_of_renamed hitems]
      exact .pure (hpass.enqueue _)
    · exact renamed_visit hunique he hrun hpass site hr
    · rename_i n
      cases n <;> first | exact .pure hpass | cases hscalar

theorem renamed_runPass (hunique : Relator.BiUnique M.keys) (he : e.Respects M) :
    ∀ fuel, Run.Passes M (e.runPass fuel)
  | 0, _, _, _ => Run.renamed_throw _
  | fuel + 1, pass, pass', hpass => by
    have hrun := renamed_runPass hunique he fuel
    unfold runPass
    rw [← hpass.queue]
    split
    · exact .pure hpass
    · refine (renamed_step hunique he hrun ?_ _).bind fun _ _ h => hrun _ _ h
      exact ⟨hpass.number, hpass.tree, rfl, hpass.rootKey, hpass.rootOnly, hpass.formerRoot⟩

/-- Expansions of trees that are the same but for identities run in the same way. -/
theorem renamed_expandIn (hunique : Relator.BiUnique M.keys) (he : e.Respects M) (fuel : Nat)
    {root root' : Node} (hroot : root.Renamed M.keys root') :
    Run.Renamed M (Node.Renamed M.keys) (e.expandIn fuel root) (e.expandIn fuel root') := by
  unfold expandIn
  refine Run.renamed_beginPass.bind fun number _ hnumber => ?_
  subst hnumber
  exact (renamed_runPass hunique he fuel _ _ (Pass.renamed_start _ _ _ hroot)).bind
    fun _ _ hpass => .pure hpass.tree

end Engine

end ComponentTree
