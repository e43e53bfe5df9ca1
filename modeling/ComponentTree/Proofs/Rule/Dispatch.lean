import ComponentTree.Proofs.Rule.Readings
import ComponentTree.Proofs.Rule.Rulebook
import Mathlib.Data.List.Basic
import Mathlib.Data.List.Induction

/-!
Which rules match a record, in terms of the texts that were registered.

A rulebook stores a rule under every reading of its texts, so one text fills many selectors. Under
one selector it still stores just the rules whose registration contains the text of the selector, if
the selector is a reading of its text at all (`stored_ofRegistrations`). Main statement
(`resolve_ofRegistrations`): a record with plain names is matched by the first of its texts that was
registered as it stands, and gets the registrations of that text, the newest first.
-/

namespace ComponentTree

variable {σ : Type}

/-- A rule and the selector texts that it is registered for. -/
structure Registration (σ : Type) where
  texts : List String
  body : RuleM σ (Option Node)

namespace Rulebook

/-- The rulebook after some registrations, the first one first. -/
def ofRegistrations (history : List (Registration σ)) : Rulebook σ :=
  history.foldl (fun b r => (b.registerTexts r.texts r.body).1) {}

/-- The numbers of the registrations whose texts contain a text, the newest first. -/
def registered (text : String) (history : List (Registration σ)) : List RuleId :=
  ((history.zipIdx.filter fun x => text ∈ x.1.texts).map Prod.snd).reverse

theorem ofRegistrations_append (history : List (Registration σ)) (r : Registration σ) :
    ofRegistrations (history ++ [r]) =
      ((ofRegistrations history).registerTexts r.texts r.body).1 := by
  rw [ofRegistrations, List.foldl_append]
  rfl

theorem ofRegistrations_built (history : List (Registration σ)) :
    (ofRegistrations history).Built := by
  induction history using List.reverseRecOn with
  | nil => exact .empty
  | append_singleton history r ih =>
    rw [ofRegistrations_append]
    exact ih.register _ _

theorem length_ofRegistrations (history : List (Registration σ)) :
    (ofRegistrations history).rules.length = history.length := by
  induction history using List.reverseRecOn with
  | nil => rfl
  | append_singleton history r ih =>
    rw [ofRegistrations_append, List.length_append, ← ih]
    exact List.length_append

theorem registered_append (text : String) (history : List (Registration σ)) (r : Registration σ) :
    registered text (history ++ [r]) =
      if text ∈ r.texts then history.length :: registered text history
      else registered text history := by
  unfold registered
  rw [List.zipIdx_append, List.filter_append, List.map_append, List.reverse_append]
  by_cases h : text ∈ r.texts <;> simp [h]

theorem mem_registered {text : String} {history : List (Registration σ)} {id : RuleId} :
    id ∈ registered text history ↔ ∃ r, history[id]? = some r ∧ text ∈ r.texts := by
  unfold registered
  rw [List.mem_reverse, List.mem_map]
  constructor
  · rintro ⟨⟨r, i⟩, hm, rfl⟩
    rw [List.mem_filter, List.mem_zipIdx_iff_getElem?] at hm
    exact ⟨r, hm.1, of_decide_eq_true hm.2⟩
  · rintro ⟨r, hr, ht⟩
    refine ⟨(r, id), ?_, rfl⟩
    rw [List.mem_filter, List.mem_zipIdx_iff_getElem?]
    exact ⟨hr, decide_eq_true ht⟩

theorem registered_descending (text : String) (history : List (Registration σ)) :
    (registered text history).Pairwise (· > ·) := by
  induction history using List.reverseRecOn with
  | nil => exact .nil
  | append_singleton history r ih =>
    rw [registered_append]
    split
    · refine List.pairwise_cons.mpr ⟨fun id hid => ?_, ih⟩
      obtain ⟨r', hr', -⟩ := mem_registered.mp hid
      exact (List.getElem?_eq_some_iff.mp hr').1
    · exact ih

/-- Under a selector the registrations of its text are stored, if it is a reading of its text. -/
theorem stored_ofRegistrations (s : Selector) (history : List (Registration σ)) :
    (ofRegistrations history).stored s =
      if s ∈ Selector.readings s.text then registered s.text history else [] := by
  induction history using List.reverseRecOn with
  | nil => exact (ite_self _).symm
  | append_singleton history r ih =>
    have hread : s ∈ r.texts.flatMap Selector.readings ↔
        s ∈ Selector.readings s.text ∧ s.text ∈ r.texts := by
      rw [List.mem_flatMap]
      constructor
      · rintro ⟨text, ht, hs⟩
        obtain rfl := Selector.text_of_mem_readings hs
        exact ⟨hs, ht⟩
      · exact fun ⟨hs, ht⟩ => ⟨_, ht, hs⟩
    rw [ofRegistrations_append, registerTexts, (ofRegistrations_built history).stored_register, ih,
      length_ofRegistrations, registered_append]
    by_cases hs : s ∈ Selector.readings s.text <;> simp [hread, hs]

/-- A clear selector is a reading of its text, so the registrations of its text are stored. -/
theorem stored_ofRegistrations_clear {s : Selector} (hs : s.Clear)
    (history : List (Registration σ)) :
    (ofRegistrations history).stored s = registered s.text history := by
  rw [stored_ofRegistrations, if_pos (hs.mem_readings_iff.mpr rfl)]

/-- Every record whose component and variant are plain is matched by the first of its texts that
occurs in a registration as it stands, and its rules are the registrations with that text, the
newest first; it is matched by none if none of its texts was registered. -/
theorem resolve_ofRegistrations (history : List (Registration σ)) {component : String}
    {variant : Option String} (part : Option String) (hc : Selector.Plain component)
    (hv : ∀ v, variant = some v → Selector.Plain v ∧ v.toList.head? ≠ some '-') :
    ((ofRegistrations history).resolve component variant part).map
        (fun found => (found.1.text, found.2)) =
      (Selector.textsFor component variant part).findSome? (fun text =>
        if registered text history = [] then none else some (text, registered text history)) ∧
    ∀ s ids, (ofRegistrations history).resolve component variant part = some (s, ids) →
      ids.Pairwise (· > ·) ∧
        ∀ id, id ∈ ids ↔ ∃ r, history[id]? = some r ∧ s.text ∈ r.texts := by
  have hstored : ∀ s ∈ Selector.forRecord component variant part,
      (ofRegistrations history).stored s = registered s.text history :=
    fun s hs => stored_ofRegistrations_clear (Selector.clear_of_mem_forRecord hc hv hs) history
  constructor
  · rw [← Selector.map_text_forRecord, List.findSome?_map, resolve, List.map_findSome?,
      ← List.head?_filterMap, ← List.head?_filterMap]
    refine congrArg List.head? (List.filterMap_congr fun s hs => ?_)
    have hrules : rules? (ofRegistrations history) s =
        if registered s.text history = [] then none else some (registered s.text history) := by
      unfold rules?
      rw [hstored s hs]
      cases registered s.text history <;> rfl
    rw [Function.comp_apply, Function.comp_apply, hrules]
    split <;> rfl
  · intro s ids hr
    obtain ⟨hs, hids⟩ := resolve_eq_some hr
    rw [← hids, hstored s hs]
    exact ⟨registered_descending _ _, fun _ => mem_registered⟩

/-- Two rules for a family and one for any variant of a component with an underscore in its name:
the family comes first, with its newest rule in front. -/
theorem resolve_ofRegistrations_menu_bar :
    let history : List (Registration Unit) :=
      [⟨["menu_bar_top*"], .done none⟩, ⟨["menu_bar*"], .done none⟩,
        ⟨["menu*", "menu_bar_top*"], .done none⟩]
    Selector.Plain "menu_bar" ∧ Selector.Plain "top-left" ∧
      ((ofRegistrations history).resolve "menu_bar" (some "top-left") none).map
        (fun found => (found.1.text, found.2)) = some ("menu_bar_top*", [2, 0]) := by
  intro history
  have hc : Selector.Plain "menu_bar" :=
    ⟨by decide, by decide +kernel, by decide, by decide, by decide⟩
  have hp : Selector.Plain "top-left" :=
    ⟨by decide, by decide +kernel, by decide, by decide, by decide⟩
  have hv : ∀ v, some "top-left" = some v → Selector.Plain v ∧ v.toList.head? ≠ some '-' := by
    intro v hv
    cases hv
    exact ⟨hp, by decide⟩
  refine ⟨hc, hp, (resolve_ofRegistrations history none hc hv).1.trans ?_⟩
  decide +kernel

end Rulebook

end ComponentTree
