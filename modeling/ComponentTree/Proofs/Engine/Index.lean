import ComponentTree.Proofs.Expansion.AtMostOnce
import ComponentTree.Proofs.Rule.Rulebook
import Mathlib.Data.List.Induction

/-!
The index of a rulebook.

A rulebook stands on two legs: its rules, each with the selectors it was registered for, and the
numbers that it stores under the selectors. A registration writes to both, a selector at a time, and
the rule itself comes last. The two agree all the same (`Indexed`): a rule is stored under exactly
the selectors that are recorded with it, once under each, in front of all older ones. Nothing is
therefore stored that has no body, and an expansion marks no rule that it does not start
(`expand_marks`). Main statement (`index_after`): so it is after every history of registrations,
whether they name texts or selectors, and one registration leaves the lists of all other selectors
alone.
-/

namespace ComponentTree

variable {σ : Type}

namespace Rulebook

/-! ### Histories -/

/-- A call that changes a rulebook. -/
inductive Edit (σ : Type) where
  | register (selectors : List Selector) (body : RuleM σ (Option Node))
  | registerTexts (texts : List String) (body : RuleM σ (Option Node))
  | setDefaultVariant (component variant : String)

/-- The rulebook after an edit. -/
def edit (b : Rulebook σ) : Edit σ → Rulebook σ
  | .register selectors body => (b.register selectors body).1
  | .registerTexts texts body => (b.registerTexts texts body).1
  | .setDefaultVariant component variant => b.setDefaultVariant component variant

/-- What a new rulebook has become after some edits, the first one first. -/
def after (history : List (Edit σ)) : Rulebook σ := history.foldl edit {}

namespace Edit

/-- The selectors that the edit registers a rule for, repeats included. -/
def selectors : Edit σ → List Selector
  | .register selectors _ => selectors
  | .registerTexts texts _ => texts.flatMap Selector.readings
  | .setDefaultVariant _ _ => []

/-- The rule that the edit registers. -/
def rule? (e : Edit σ) : Option (Rule σ) :=
  match e with
  | .register _ body | .registerTexts _ body => some ⟨e.selectors, body⟩
  | .setDefaultVariant _ _ => none

end Edit

theorem after_append (history : List (Edit σ)) (e : Edit σ) :
    after (history ++ [e]) = (after history).edit e :=
  List.foldl_append

theorem Built.edit {b : Rulebook σ} (h : b.Built) (e : Edit σ) : (b.edit e).Built := by
  cases e with
  | register selectors body => exact h.register selectors body
  | registerTexts texts body => exact h.register _ body
  | setDefaultVariant component variant => exact h.setDefaultVariant component variant

theorem after_built (history : List (Edit σ)) : (after history).Built := by
  induction history using List.reverseRecOn with
  | nil => exact .empty
  | append_singleton history e ih =>
    rw [after_append]
    exact ih.edit e

/-- The rules are those that were registered, in the order of the registrations. -/
theorem rules_after (history : List (Edit σ)) :
    (after history).rules = history.filterMap Edit.rule? := by
  induction history using List.reverseRecOn with
  | nil => rfl
  | append_singleton history e ih =>
    rw [after_append, List.filterMap_append, ← ih]
    cases e with
    | register selectors body => rfl
    | registerTexts texts body => rfl
    | setDefaultVariant component variant => exact (List.append_nil _).symm

/-! ### What is stored -/

/-- What is stored under the selectors is what is recorded with the rules. -/
structure Indexed (b : Rulebook σ) : Prop where
  /-- A rule is stored under exactly the selectors that are recorded with it. -/
  stored : ∀ s id, id ∈ b.stored s ↔
    ∃ recorded, b.selectors? id = some recorded ∧ s ∈ recorded
  /-- Newer rules come first, and none comes twice. -/
  descending : ∀ s, (b.stored s).Pairwise (· > ·)
  /-- Every rule that is stored has a body. -/
  body : ∀ s, ∀ id ∈ b.stored s, (b.body? id).isSome

theorem Built.indexed {b : Rulebook σ} (h : b.Built) : b.Indexed := by
  refine ⟨?_, h.stored_descending, fun s id hid => ?_⟩
  · induction h with
    | empty => intro s id; simp [Rulebook.stored, selectors?]
    | @register b h selectors body ih =>
      intro s id
      rw [h.stored_register, selectors?_register]
      by_cases hid : id = b.rules.length
      · subst hid
        have hnew : b.rules.length ∉ b.stored s :=
          fun hmem => Nat.lt_irrefl _ (h.lt_of_mem_stored hmem)
        by_cases hs : s ∈ selectors <;> simp [hs, hnew]
      · rw [if_neg hid, ← ih s id]
        by_cases hs : s ∈ selectors <;> simp [hs, hid]
    | setDefaultVariant _ _ _ ih => exact ih
  · simpa [body?] using h.lt_of_mem_stored hid

/-! ### One registration -/

theorem get?_store_of_ne (id : RuleId) (m : OrderedMap Selector (List RuleId)) {s t : Selector}
    (h : t ≠ s) : (store id m s).get? t = m.get? t := by
  unfold store
  by_cases hid : ((m.get? s).getD []).contains id = true
  · rw [if_pos hid]
  · rw [if_neg hid, OrderedMap.get?_insert, if_neg h]

theorem get?_foldl_store_of_notMem (id : RuleId) {t : Selector} :
    ∀ {selectors : List Selector}, t ∉ selectors → ∀ m : OrderedMap Selector (List RuleId),
      (selectors.foldl (store id) m).get? t = m.get? t
  | [], _, _ => rfl
  | s :: rest, h, m => by
    rw [List.mem_cons, not_or] at h
    rw [List.foldl_cons, get?_foldl_store_of_notMem id h.2, get?_store_of_ne id m h.1]

/-- An edit leaves alone what is stored under selectors that it does not name. -/
theorem get?_bySelector_edit (b : Rulebook σ) {e : Edit σ} {s : Selector} (h : s ∉ e.selectors) :
    (b.edit e).bySelector.get? s = b.bySelector.get? s := by
  cases e with
  | register selectors body => exact get?_foldl_store_of_notMem _ h _
  | registerTexts texts body => exact get?_foldl_store_of_notMem _ h _
  | setDefaultVariant component variant => rfl

end Rulebook

/-! ### Marks -/

namespace Engine

open World

/-- What is carried along a run for the marks of rules. -/
structure KeepsMarks (w w' : World σ) : Prop where
  grows : w.ledger.GrowsTo w'.ledger
  marks : w.ledger.marks = w.ledger.starts.reverse → w'.ledger.marks = w'.ledger.starts.reverse

/-- Rules that are due have bodies, so they start as they are marked. -/
theorem admits_keepsMarks {e : Engine σ} (hb : e.rulebook.Built) : e.Admits KeepsMarks where
  refl _ := ⟨.refl _, id⟩
  trans h h' := ⟨h.grows.trans h'.grows, h'.marks ∘ h.marks⟩
  grows h := h.grows
  move {w w'} hm hdue := by
    refine ⟨hm.grows, fun hw => ?_⟩
    cases hm with
    | start pass path key rule position =>
      rw [starts_log, starts_mark, List.reverse_append, ← hw]
      rfl
    | skip key rule hmark hnone =>
      rcases hdue (key, rule) (List.mem_cons_self ..) with hold | hdue
      · exact absurd hold hmark
      · obtain ⟨-, -, component, variant, part, s, front, back, -, hres, -⟩ := hdue
        have hbody := hb.body?_isSome hres (List.mem_append_right _ (List.mem_cons_self ..))
        rw [hnone] at hbody
        cases hbody
    | visit | replace | identify => rw [starts_log_of_none _ rfl]; exact hw
    | issue | beginPass | remember => exact hw

/-- The marks are the starts, the latest first: no rule is marked that does not start, in no pass
and however the expansion ends. -/
theorem expand_marks {e : Engine σ} (hb : e.rulebook.Built) (fuel : Nat) (nextKey : Key)
    (memory : σ) (root : Node) :
    (e.expand fuel nextKey memory root).ledger.marks =
      (e.expand fuel nextKey memory root).ledger.starts.reverse := by
  obtain ⟨w, hw, hl⟩ := (admits_keepsMarks hb).expand fuel nextKey memory root
  rw [hl]
  exact hw.marks rfl

end Engine

namespace Rulebook

/-- After every history of registrations the rules are those that were registered, what is stored
under the selectors is what is recorded with them, one more edit leaves the lists of all selectors
alone that it does not name, and expansions mark the rules that they start and no others. -/
theorem index_after (history : List (Edit σ)) :
    (after history).rules = history.filterMap Edit.rule? ∧ (after history).Indexed ∧
    (∀ (e : Edit σ) (s : Selector), s ∉ e.selectors →
      (after (history ++ [e])).bySelector.get? s = (after history).bySelector.get? s) ∧
    ∀ (e : Engine σ) (fuel : Nat) (nextKey : Key) (memory : σ) (root : Node),
      let x := Engine.expand { e with rulebook := after history } fuel nextKey memory root
      x.ledger.marks = x.ledger.starts.reverse := by
  refine ⟨rules_after history, (after_built history).indexed, fun e s hs => ?_, ?_⟩
  · rw [after_append]
    exact get?_bySelector_edit _ hs
  · intro e fuel nextKey memory root
    exact Engine.expand_marks (after_built history) fuel nextKey memory root

/-- Two readings of one text are stored under the rule of both, and the repeated selector once. -/
example :
    let b := after (σ := Unit) [.registerTexts ["menu_bar", "menu*"] (.done none),
      .setDefaultVariant "menu" "top",
      .register [⟨"menu", .any, none⟩, ⟨"menu", .any, none⟩] (.done none)]
    (b.stored ⟨"menu", .any, none⟩, b.stored ⟨"menu", .exact "bar", none⟩,
      b.stored ⟨"menu_bar", .none, none⟩) = ([1, 0], [0], [0]) := by
  decide +kernel

end Rulebook

end ComponentTree
