import ComponentTree.Proofs.Engine.Owner
import ComponentTree.Proofs.Expansion.Worklist

/-!
Records that are done with their rules.

A record is settled if it is stopped or if all rules that it is matched by are marked on it. A
record that a pass keeps is settled right away (`Does.kept_settled`) and stays so, since marks are
never taken back (`Reaches.kept_settled`). The rules of a record may run it ahead and go on with
another record of its identity; that one was kept by the pass for the record alone, and so is
settled itself. Therefore a rule leaves a record that either is matched like the one it was given or
is settled (`Tracked`), provided that this holds of the passes that the rule asks for. When a
settled record comes up again, nothing is done with it (`Settled.does`).
-/

namespace ComponentTree

variable {σ : Type}

/-- A record is matched like another one, and it is stopped if that one is. -/
structure Record.Follows (r' r : Record) : Prop where
  key : r'.key = r.key
  component : r'.component = r.component
  variant : r'.variant = r.variant
  part : r'.part = r.part
  stopped : r.rendering.stopped = true → r'.rendering.stopped = true

namespace Record.Follows

variable {r r' r'' : Record}

theorem refl (r : Record) : r.Follows r := ⟨rfl, rfl, rfl, rfl, id⟩

theorem trans (h' : r''.Follows r') (h : r'.Follows r) : r''.Follows r where
  key := h'.key.trans h.key
  component := h'.component.trans h.component
  variant := h'.variant.trans h.variant
  part := h'.part.trans h.part
  stopped hs := h'.stopped (h.stopped hs)

/-- What a rule writes has no part in how the record is matched. -/
theorem write (r : Record) (x : Write) : (r.write x).Follows r := by
  cases x with
  | autoInit =>
    refine ⟨rfl, rfl, rfl, rfl, fun hs => ?_⟩
    change (if r.rendering.autoInit = some false then r.rendering
      else { r.rendering with autoInit := some true }).stopped = true
    split <;> exact hs
  | stop => exact ⟨rfl, rfl, rfl, rfl, fun _ => rfl⟩
  | _ => exact ⟨rfl, rfl, rfl, rfl, id⟩

theorem of_content {content : Node} (h : r' = { r with content }) : r'.Follows r := by
  subst h
  exact ⟨rfl, rfl, rfl, rfl, id⟩

end Record.Follows

namespace Engine

open World

variable {e : Engine σ} {r r₁ r₂ left : Record} {w w₁ w₂ w' : World σ}

theorem Resolved.follows (h : e.Resolved r) (hf : r₁.Follows r) : e.Resolved r₁ := by
  intro hv
  rw [hf.component]
  exact h (hf.variant ▸ hv)

/-- The record is stopped, or all rules that it is matched by are marked on it. -/
def Settled (e : Engine σ) (r : Record) (w : World σ) : Prop :=
  r.rendering.stopped = true ∨ ∀ component s rules, r.component = some component →
    e.rulebook.resolve component r.variant r.part = some (s, rules) →
      ∀ rule ∈ rules, (r.key, rule) ∈ w.ledger.marks

theorem Settled.mono (h : e.Settled r w) (hf : r₁.Follows r) (hm : Moves e w w') :
    e.Settled r₁ w' := by
  refine h.imp hf.stopped fun h component s rules hc hr rule hmem => ?_
  rw [hf.component] at hc
  rw [hf.variant, hf.part] at hr
  rw [hf.key]
  exact hm.marks_mono (h component s rules hc hr rule hmem)

/-- The owner of `r'` is filled in, and `r'` is matched like `r` or is settled. -/
structure Tracks (e : Engine σ) (r r' : Record) (w : World σ) : Prop where
  resolved : e.Resolved r'
  follows_or_settled : r'.Follows r ∨ e.Settled r' w

theorem Tracks.of_follows (h : e.Resolved r) (hf : r₁.Follows r) : e.Tracks r r₁ w :=
  ⟨h.follows hf, Or.inl hf⟩

theorem Tracks.mono (h : e.Tracks r r₁ w) (hm : Moves e w w') : e.Tracks r r₁ w' :=
  ⟨h.resolved, h.follows_or_settled.imp id fun hs => hs.mono (.refl r₁) hm⟩

theorem Tracks.trans (h : e.Tracks r r₁ w₁) (h' : e.Tracks r₁ r₂ w₂) (hm : Moves e w₁ w₂) :
    e.Tracks r r₂ w₂ := by
  refine ⟨h'.resolved, ?_⟩
  rcases h'.follows_or_settled with hf' | hs'
  · exact h.follows_or_settled.imp hf'.trans fun hs => hs.mono hf' hm
  · exact Or.inr hs'

/-- The world has moved on, and the record is tracked if its owner was filled in. -/
def Tracked (e : Engine σ) (r : Record) (w : World σ) (r' : Record) (w' : World σ) : Prop :=
  Moves e w w' ∧ (e.Resolved r → e.Tracks r r' w')

/-! ### Kept and replaced records -/

variable {run : Pass → Run σ Pass} {number : Nat} {site : Site} {key : Key}

/-- A list of rules that keeps its record has gone through to its end, or a rule has stopped the
record. -/
theorem Ran.kept_marked (hc : e.Carries run e.Tracked)
    (hrun : ∀ pass w, Moves e w (run pass w).2) {rules : List RuleId}
    (h : e.Ran run number site key rules r w (.kept left) w') :
    left.rendering.stopped = true ∨ ∀ rule ∈ rules, (key, rule) ∈ w'.ledger.marks := by
  have cons : ∀ {rule rest}, (key, rule) ∈ w'.ledger.marks →
      (left.rendering.stopped = true ∨ ∀ x ∈ rest, (key, x) ∈ w'.ledger.marks) →
      left.rendering.stopped = true ∨ ∀ x ∈ rule :: rest, (key, x) ∈ w'.ledger.marks :=
    fun hm ih => ih.imp id fun h => List.forall_mem_cons.mpr ⟨hm, h⟩
  generalize hv : Verdict.kept left = v at h
  induction h with
  | done => exact Or.inr fun rule hm => by cases hm
  | marked hm h ih => exact cons ((hc.ran hrun h).1.marks_mono hm) (ih cons hv)
  | missing _ _ h ih =>
    exact cons ((hc.ran hrun h).1.marks_mono (List.mem_cons_self ..)) (ih cons hv)
  | replaced => cases hv
  | stopped _ _ _ _ hs => cases hv; exact Or.inl hs
  | went _ _ hx _ _ h ih =>
    have hm := (hc.exec hrun _ hx).1.marks_mono (List.mem_cons_self ..)
    exact cons ((hc.ran hrun h).1.marks_mono hm) (ih cons hv)

namespace Does

variable {fuel : Nat} {pass : Pass} {found : Record} {owner : Owner} {deed : Deed}

theorem moves (h : e.Does (e.runPass fuel) pass site w deed w') : Moves e w w' := by
  have hm := step_moves (e := e) (runPass_moves fuel) pass site w
  rw [h.step_eq] at hm
  exact hm

/-- The record that is left comes from the one that was found. -/
theorem tracks (hc : e.Carries (e.runPass fuel) e.Tracked)
    (h : e.Does (e.runPass fuel) pass site w deed w') (hl : deed.leaves? = some (found, left)) :
    e.Tracks (e.resolveOwner found site.owner).1 left w' :=
  (hc.does (runPass_moves fuel) h hl).2 (e.resolveOwner_resolved found site.owner)

/-- A record that is kept is settled. -/
theorem kept_settled (hc : e.Carries (e.runPass fuel) e.Tracked)
    (h : e.Does (e.runPass fuel) pass site w (.kept found left owner) w') : e.Settled left w' := by
  have ht := h.tracks hc rfl
  cases h with
  | plain _ _ hn =>
    refine Or.inr fun component s rules hc => ?_
    rw [hn] at hc
    cases hc
  | stopped _ _ _ _ hs => exact Or.inl hs
  | @kept _ r _ _ component _ _ hr hcomp _ _ hv =>
    rw [hr] at ht
    rcases ht.follows_or_settled with hf | hs
    · -- the rules that were run are the ones that the record is matched by as it was left
      have howner := resolveOwner_owner hr (by rw [hcomp]; rfl)
      have same : ∀ component', left.component = some component' →
          e.rulebook.resolve component' left.variant left.part =
            e.rulebook.resolve component owner.variant r.part := by
        intro component' hc'
        rw [hf.component, hcomp, Option.some.injEq] at hc'
        rw [hf.variant, hf.part, howner, hc']
      rcases applyRules_eq_ok hv with ⟨hnone, -, -⟩ | ⟨s, rules, hsome, hran⟩
      · refine Or.inr fun component' s rules hc' hr' => ?_
        rw [same component' hc', hnone] at hr'
        cases hr'
      · refine (hran.kept_marked hc (runPass_moves fuel)).imp id ?_
        intro hm component' s' rules' hc' hr'
        rw [same component' hc', hsome] at hr'
        cases hr'
        rw [hf.key]
        exact hm
    · exact hs

end Does

/-! ### Settled records that come up again -/

theorem runRules_of_mark {pass : Nat} {rule : RuleId} {rest : List RuleId}
    (hm : (key, rule) ∈ w.ledger.marks) : e.runRules run pass site key (rule :: rest) r w =
      e.runRules run pass site key rest r w := by
  rw [runRules, Run.bind_apply, Run.mark_apply, if_pos hm]
  rfl

theorem runRules_of_marks {pass : Nat} : ∀ {rules : List RuleId},
    (∀ rule ∈ rules, (key, rule) ∈ w.ledger.marks) →
      e.runRules run pass site key rules r w = (.ok (.kept r), w)
  | [], _ => rfl
  | rule :: rest, h => by
    obtain ⟨hm, hrest⟩ := List.forall_mem_cons.mp h
    rw [runRules_of_mark hm, runRules_of_marks hrest]

/-- A settled record with its owner filled in is kept as it is when it comes up again. -/
theorem Settled.does {pass : Pass} {owner : Owner} (hs : e.Settled r w)
    (hn : pass.tree.at? site.path = some (.record r))
    (hr : e.resolveOwner r site.owner = (r, owner))
    (hg : e.options.refuses site.count.rounds = false) :
    ∃ w', e.Does run pass site w (.kept r r owner) w' ∧ w'.ledger.marks = w.ledger.marks := by
  cases hc : r.component with
  | none => exact ⟨w, .plain hn hr hc, rfl⟩
  | some component =>
    cases hstopped : r.rendering.stopped with
    | true => exact ⟨_, .stopped hn hr hc hg hstopped, rfl⟩
    | false =>
      refine ⟨arrive pass site r owner component w, .kept hn hr hc hg hstopped ?_, rfl⟩
      have hvariant : owner.variant = r.variant := by
        rw [resolveOwner_owner hr (by rw [hc]; rfl)]
      have hmarks := hs.resolve_left (by rw [hstopped]; exact Bool.false_ne_true)
      unfold applyRules
      rw [hvariant]
      cases hres : e.rulebook.resolve component r.variant r.part with
      | none => rfl
      | some found => exact runRules_of_marks (hmarks component found.1 found.2 hc hres)

/-- At every turn, the records that were kept so far are settled as they were left. -/
theorem Reaches.kept_settled {limit : Nat} {pass₀ pass : Pass} {w₀ : World σ} {turns : List Turn}
    (hc : ∀ fuel < limit, e.Carries (e.runPass fuel) e.Tracked)
    (h : e.Reaches limit pass₀ w₀ turns pass w) :
    ∀ {site found left owner}, ⟨site, .kept found left owner⟩ ∈ turns →
      e.Resolved left ∧ e.Settled left w := by
  induction h with
  | start => intro site found left owner hm; cases hm
  | @turn _ _ _ _ _ _ fuel _ _ _ hf hd ih =>
    intro site found left owner hm
    rcases List.mem_cons.mp hm with heq | hm
    · cases heq
      exact ⟨(hd.tracks (hc fuel hf) rfl).resolved, hd.kept_settled (hc fuel hf)⟩
    · obtain ⟨hr, hs⟩ := ih hm
      exact ⟨hr, hs.mono (.refl left) hd.moves⟩

end Engine

end ComponentTree
