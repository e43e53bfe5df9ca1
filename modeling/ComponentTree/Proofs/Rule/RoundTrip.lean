import ComponentTree.Proofs.Rule.Readings
import Mathlib.Data.List.Basic

/-!
Selector texts there and back.

A text is read in one of two ways: its first underscore ends the component (`ofText`), or any
underscore may (`readings`). Either way what is read is made of the pieces of the text, so it prints
as that text (`text_ofText`, `text_of_mem_readings`). Readings differ, since each ends the component
at an underscore of its own (`readings_pairwise`). The other way round, a selector is what its text
is read as if no name in it can be taken for a separator (`Tidy`, `ofText_text`); the component may
be empty then, and the part may be any text, since all separators stand in front of it.
-/

namespace ComponentTree

namespace Selector

/-! ### From a text to the text -/

theorem cutVariant_join (cs : List Char) :
    (cutVariant cs).1 ++ (cutVariant cs).2.elim [] (fun variant => '_' :: variant) = cs := by
  induction cs with
  | nil => rfl
  | cons c rest ih =>
    rw [cutVariant]
    split
    · rename_i hc
      rw [hc]
      rfl
    · exact congrArg (c :: ·) ih

theorem ofText_of_pieces {text : String} {cs : List Char} {star : Bool} {part : Option String}
    (hp : pieces text = (cs, star, part)) :
    ofText text = ⟨String.ofList (cutVariant cs).1,
      (cutVariant cs).2.elim (unnamedPattern star) (namedPattern star), part⟩ := by
  unfold ofText
  rw [hp]
  dsimp only
  rcases cutVariant cs with ⟨_, _ | _⟩ <;> rfl

/-- What a text stands for when its first underscore ends the component is made of its pieces. -/
theorem ofText_pieces {text : String} {cs : List Char} {star : Bool} {part : Option String}
    (hp : pieces text = (cs, star, part)) :
    (ofText text).stem = cs ∧ starred (ofText text).variant = star ∧ (ofText text).part = part := by
  have hjoin := cutVariant_join cs
  rw [ofText_of_pieces hp]
  refine ⟨?_, ?_, rfl⟩
  · rcases hcut : cutVariant cs with ⟨component, _ | variant⟩ <;> rw [hcut] at hjoin <;>
      rw [← hjoin]
    · cases star <;> simp [stem, unnamedPattern]
    · cases star <;> simp [stem, namedPattern]
  · rcases cutVariant cs with ⟨_, _ | _⟩ <;> cases star <;> rfl

/-- It prints as the text. -/
theorem text_ofText (text : String) : (ofText text).text = text := by
  rcases hp : pieces text with ⟨cs, star, part⟩
  obtain ⟨rfl, rfl, rfl⟩ := ofText_pieces hp
  rw [← String.toList_inj, toList_text]
  exact pieces_join hp

/-! ### Readings of one text -/

/-- From left to right, more and more stands in front of a cut. -/
theorem cuts_pairwise : ∀ cs : List Char, (cuts cs).Pairwise fun p q => p.1.length < q.1.length
  | [] => .nil
  | c :: rest => by
    rw [cuts, List.pairwise_append, List.pairwise_map]
    refine ⟨?_, (cuts_pairwise rest).imp Nat.succ_lt_succ, fun p hp q hq => ?_⟩
    · split
      · exact List.pairwise_singleton _ _
      · exact .nil
    · -- nothing stands in front of an underscore that the text begins with
      obtain ⟨q, -, rfl⟩ := List.mem_map.mp hq
      split at hp
      · rw [List.mem_singleton.mp hp]
        exact Nat.succ_pos _
      · cases hp

/-- From one reading to the next the component gets longer. -/
theorem readings_pairwise (text : String) :
    (readings text).Pairwise fun s t => s.component.toList.length < t.component.toList.length := by
  unfold readings
  rcases pieces text with ⟨cs, star, part⟩
  dsimp only
  rw [List.pairwise_append, List.pairwise_map]
  refine ⟨?_, List.pairwise_singleton _ _, fun s hs t ht => ?_⟩
  · refine ((cuts_pairwise cs).filter _).imp fun h => ?_
    rwa [String.toList_ofList, String.toList_ofList]
  · -- the last reading is not cut
    obtain ⟨p, hp, rfl⟩ := List.mem_map.mp hs
    have hcut := congrArg List.length (mem_cuts.mp (List.mem_of_mem_filter hp))
    rw [List.length_append, List.length_cons] at hcut
    rw [List.mem_singleton.mp ht, String.toList_ofList, String.toList_ofList]
    omega

theorem nodup_readings (text : String) : (readings text).Nodup :=
  (readings_pairwise text).imp fun hlt => by
    rintro rfl
    exact Nat.lt_irrefl _ hlt

/-! ### From a selector to the selector -/

theorem cutVariant_append {component variant : List Char} (h : '_' ∉ component) :
    cutVariant (component ++ '_' :: variant) = (component, some variant) := by
  induction component with
  | nil => rfl
  | cons c rest ih =>
    rw [List.mem_cons, not_or] at h
    rw [List.cons_append, cutVariant, if_neg (Ne.symm h.1), ih h.2]

theorem cutVariant_self {component : List Char} (h : '_' ∉ component) :
    cutVariant component = (component, none) := by
  induction component with
  | nil => rfl
  | cons c rest ih =>
    rw [List.mem_cons, not_or] at h
    rw [cutVariant, if_neg (Ne.symm h.1), ih h.2]

/-- No name in front of the part can be taken for a separator: the component has no underscore, and
a variant text has none at its ends and no double one. A star only ends a family. -/
structure Tidy (s : Selector) : Prop where
  component : '_' ∉ s.component.toList
  component_star : s.component.toList.getLast? ≠ some '*'
  variant : ∀ v, s.variant = .exact v ∨ s.variant = .family v → v ≠ "" ∧
    ¬ ['_', '_'] <:+: v.toList ∧ v.toList.head? ≠ some '_' ∧ v.toList.getLast? ≠ some '_'
  exact_star : ∀ v, s.variant = .exact v → v.toList.getLast? ≠ some '*'

namespace Tidy

variable {s : Selector}

theorem component_single (h : s.Tidy) : ¬ ['_', '_'] <:+: s.component.toList :=
  fun hd => h.component (hd.subset (List.mem_cons_self ..))

theorem component_last (h : s.Tidy) : s.component.toList.getLast? ≠ some '_' :=
  fun hl => h.component (List.mem_of_getLast? hl)

theorem stem_single (h : s.Tidy) : ¬ ['_', '_'] <:+: s.stem := by
  have named : ∀ v, s.variant = .exact v ∨ s.variant = .family v →
      ¬ ['_', '_'] <:+: s.component.toList ++ '_' :: v.toList := by
    intro v hv
    obtain ⟨-, hsingle, hhead, -⟩ := h.variant v hv
    exact single_join h.component_single h.component_last hsingle hhead
  unfold stem
  cases hv : s.variant with
  | exact v => exact named v (Or.inl hv)
  | family v => exact named v (Or.inr hv)
  | none | any => rw [List.append_nil]; exact h.component_single

theorem stem_last (h : s.Tidy) (hs : starred s.variant = false) :
    s.stem.getLast? ≠ some '_' ∧ s.stem.getLast? ≠ some '*' := by
  unfold stem
  cases hv : s.variant with
  | exact v =>
    obtain ⟨hne, -, -, hlast⟩ := h.variant v (Or.inl hv)
    dsimp only
    rw [getLast?_join hne]
    exact ⟨hlast, h.exact_star v hv⟩
  | none =>
    dsimp only
    rw [List.append_nil]
    exact ⟨h.component_last, h.component_star⟩
  | family | any => rw [hv] at hs; cases hs

end Tidy

/-- A tidy selector is what its text stands for when the first underscore ends the component. -/
theorem ofText_text {s : Selector} (h : s.Tidy) : ofText s.text = s := by
  have hcomponent := h.component
  rw [ofText_of_pieces (pieces_text h.stem_single h.stem_last)]
  obtain ⟨component, variant, part⟩ := s
  cases variant with
  | exact v => simp [stem, starred, cutVariant_append hcomponent, namedPattern]
  | family v => simp [stem, starred, cutVariant_append hcomponent, namedPattern]
  | none => simp [stem, starred, cutVariant_self hcomponent, unnamedPattern]
  | any => simp [stem, starred, cutVariant_self hcomponent, unnamedPattern]

/-- Whatever a text is read as prints as that text, and its readings are all different. A tidy
selector, with any part, is what its text is read as. -/
theorem text_round_trip :
    (∀ text, (ofText text).text = text ∧ (∀ s ∈ readings text, s.text = text) ∧
      (readings text).Nodup) ∧
    ∀ s : Selector, s.Tidy → ofText s.text = s :=
  ⟨fun text => ⟨text_ofText text, fun _ => text_of_mem_readings, nodup_readings text⟩,
    fun _ => ofText_text⟩

/-- A family with an underscore in its name, of a part that begins with one. -/
theorem text_round_trip_menu :
    let s : Selector := ⟨"menu", .family "wide_grid", some "_x__y"⟩
    s.Tidy ∧ s.text = "menu_wide_grid*___x__y" ∧ ofText s.text = s ∧
      (⟨"menu_wide", .family "grid", some "_x__y"⟩ : Selector) ∈ readings s.text ∧
      (⟨"menu_wide", .family "grid", some "_x__y"⟩ : Selector).text = s.text := by
  intro s
  have htidy : s.Tidy := by
    refine ⟨by decide, by decide, fun v hv => ?_, by rintro v ⟨⟩⟩
    obtain rfl : "wide_grid" = v := by
      rcases hv with hv | hv <;> cases hv
      rfl
    exact ⟨by decide, by decide +kernel, by decide, by decide⟩
  obtain ⟨htexts, hselectors⟩ := text_round_trip
  have hreading : (⟨"menu_wide", .family "grid", some "_x__y"⟩ : Selector) ∈ readings s.text := by
    decide +kernel
  exact ⟨htidy, by decide +kernel, hselectors s htidy, hreading, (htexts s.text).2.1 _ hreading⟩

end Selector

end ComponentTree
