import ComponentTree.Proofs.Rule.Dispatch
import ComponentTree.Proofs.Rule.RoundTrip

/-!
The selector whose component ends at the first underscore, among the readings of its text.

Both ways of reading a text cut it into the same pieces, and only differ in which underscores may
end the component: `ofText` takes the first one, whatever stands around it, while `readings` leaves
out those with no text on one side. So `ofText` gives the first of the readings if the first
underscore has text on both sides, and none of them otherwise (`head?_readings_iff`,
`ofText_mem_readings_iff`). Rules are stored under readings. What `ofText` makes of a text therefore
finds the rules that were registered for this text in the first case, and no rules in the second
(`ofText_first`).
-/

namespace ComponentTree

namespace Selector

instance (s : Selector) : Decidable s.Named :=
  match s with
  | ⟨component, .exact v, _⟩ => inferInstanceAs (Decidable (component ≠ "" ∧ v ≠ ""))
  | ⟨component, .family v, _⟩ => inferInstanceAs (Decidable (component ≠ "" ∧ v ≠ ""))
  | ⟨_, .none, _⟩ => isTrue trivial
  | ⟨_, .any, _⟩ => isTrue trivial

/-- If there is an underscore in front of the star and the part, the first one has text on both
sides. -/
def SplitsAtFirst (text : String) : Prop :=
  ∀ component variant, '_' ∉ component → (pieces text).1 = component ++ '_' :: variant →
    component ≠ [] ∧ variant ≠ []

theorem not_mem_cutVariant (cs : List Char) : '_' ∉ (cutVariant cs).1 := by
  induction cs with
  | nil => exact List.not_mem_nil
  | cons c rest ih =>
    rw [cutVariant]
    split
    · exact List.not_mem_nil
    · rename_i hc
      rw [List.mem_cons, not_or]
      exact ⟨Ne.symm hc, ih⟩

theorem named_ofText_iff (text : String) : (ofText text).Named ↔ SplitsAtFirst text := by
  unfold SplitsAtFirst
  rcases hp : pieces text with ⟨cs, star, part⟩
  rw [ofText_of_pieces hp]
  have hfree := not_mem_cutVariant cs
  have hjoin := cutVariant_join cs
  rcases hcut : cutVariant cs with ⟨component, _ | variant⟩ <;> rw [hcut] at hfree hjoin
  · -- no underscore to cut at
    obtain rfl : component = cs := (List.append_nil _).symm.trans hjoin
    have hnamed : Named ⟨String.ofList component, unnamedPattern star, part⟩ := by
      cases star <;> trivial
    refine iff_of_true hnamed fun a b _ hab => absurd ?_ hfree
    rw [hab]
    exact List.mem_append_right _ (List.mem_cons_self ..)
  · have hnamed : Named ⟨String.ofList component, namedPattern star variant, part⟩ ↔
        component ≠ [] ∧ variant ≠ [] := by
      cases star <;> simp [Named, namedPattern]
    refine hnamed.trans ⟨fun h a b ha hab => ?_, fun h => h component variant hfree hjoin.symm⟩
    -- a text has one first underscore
    have hcut' : cutVariant (a ++ '_' :: b) = (a, some b) := cutVariant_append ha
    rw [← hab, hcut] at hcut'
    cases hcut'
    exact h

instance (text : String) : Decidable (SplitsAtFirst text) :=
  decidable_of_iff _ (named_ofText_iff text)

theorem ofText_mem_readings_iff (text : String) :
    ofText text ∈ readings text ↔ SplitsAtFirst text := by
  rcases hp : pieces text with ⟨cs, star, part⟩
  rw [mem_readings hp, and_iff_left (ofText_pieces hp), named_ofText_iff]

theorem length_cutVariant_le (component variant : List Char) :
    (cutVariant (component ++ '_' :: variant)).1.length ≤ component.length := by
  induction component with
  | nil => exact Nat.le_refl _
  | cons c rest ih =>
    rw [List.cons_append, cutVariant]
    split
    · exact Nat.zero_le _
    · exact Nat.succ_le_succ ih

/-- No reading of a text has a shorter component than the one that ends at the first underscore. -/
theorem length_component_ofText_le {text : String} {s : Selector} (h : s ∈ readings text) :
    (ofText text).component.toList.length ≤ s.component.toList.length := by
  rcases hp : pieces text with ⟨cs, star, part⟩
  obtain ⟨-, rfl, -, -⟩ := (mem_readings hp).mp h
  rw [ofText_of_pieces hp, String.toList_ofList]
  unfold stem
  cases s.variant with
  | exact v | family v => exact length_cutVariant_le _ _
  | none | any =>
    dsimp only
    rw [List.append_nil]
    have hjoin := congrArg List.length (cutVariant_join s.component.toList)
    rw [List.length_append] at hjoin
    omega

/-- What stands for a text when its first underscore ends the component is its first reading, if it
is a reading at all. -/
theorem head?_readings_iff (text : String) :
    (readings text).head? = some (ofText text) ↔ SplitsAtFirst text := by
  rw [← ofText_mem_readings_iff]
  refine ⟨List.mem_of_mem_head?, fun h => ?_⟩
  have hlt := readings_pairwise text
  have hle : ∀ s ∈ readings text, _ := fun s => length_component_ofText_le
  cases hr : readings text with
  | nil =>
    rw [hr] at h
    cases h
  | cons s rest =>
    rw [hr] at h hlt hle
    rcases List.mem_cons.mp h with heq | hmem
    · rw [heq]
      rfl
    · have := List.rel_of_pairwise_cons hlt hmem
      exact absurd (hle s (List.mem_cons_self ..)) (Nat.not_le_of_lt this)

end Selector

namespace Rulebook

variable {σ : Type}

/-- If there is no underscore in front of the star and the part of a text, or the first one has text
on both sides, the selector whose component ends there is the first reading of the text, and the
registrations of the text are the rules of this selector, the newest first. Otherwise it is no
reading of the text and has no rules, whatever was registered. -/
theorem ofText_first (text : String) :
    ((Selector.readings text).head? = some (Selector.ofText text) ↔ Selector.SplitsAtFirst text) ∧
    (Selector.ofText text ∈ Selector.readings text ↔ Selector.SplitsAtFirst text) ∧
    ∀ history : List (Registration σ), (ofRegistrations history).rules? (Selector.ofText text) =
      if Selector.SplitsAtFirst text ∧ registered text history ≠ [] then
        some (registered text history)
      else none := by
  refine ⟨Selector.head?_readings_iff text, Selector.ofText_mem_readings_iff text,
    fun history => ?_⟩
  have hstored := stored_ofRegistrations (Selector.ofText text) history
  rw [Selector.text_ofText] at hstored
  rw [rules?, hstored]
  by_cases hfirst : Selector.SplitsAtFirst text
  · rw [if_pos ((Selector.ofText_mem_readings_iff text).mpr hfirst)]
    cases registered text history <;> simp [hfirst]
  · rw [if_neg (mt (Selector.ofText_mem_readings_iff text).mp hfirst), if_neg fun h => hfirst h.1]

/-- Nothing stands in front of the first underscore of this text: its rules are stored under the
component with the underscore in its name, not under the empty component with a variant. -/
theorem ofText_first_leading_underscore :
    ¬ (∀ text, (Selector.readings text).head? = some (Selector.ofText text)) ∧
      ¬ (∀ (history : List (Registration Unit)) (r : Registration Unit), r ∈ history →
        ∀ text ∈ r.texts, ((ofRegistrations history).rules? (Selector.ofText text)).isSome) := by
  constructor
  · intro h
    exact absurd (h "_x") (by decide +kernel)
  · intro h
    exact absurd (h [⟨["_x"], .done none⟩] _ (List.mem_singleton_self _) "_x"
      (List.mem_singleton_self _)) (by decide +kernel)

end Rulebook

end ComponentTree
