import ComponentTree.Engine

/-!
Owners of records.

Main statements: a part gets a component where one is handed down (`resolveOwner_owned`), a record
that got its owner cannot fall back to a default variant any more (`resolveOwner_resolved`), and for
such a record nothing changes when its owner is settled again below its own component
(`resolveOwner_of_resolved`, `resolveOwner_own`) or in the same place (`resolveOwner_again`).
-/

namespace ComponentTree

variable {σ : Type}

/-- If the record is a part, it has a component. -/
def Record.Owned (r : Record) : Prop := r.part.isSome → r.component.isSome

namespace Engine

variable {e : Engine σ} {r r' : Record} {owner owner' : Owner}

/-- The record has a variant, or its component has no default variant. -/
def Resolved (e : Engine σ) (r : Record) : Prop :=
  r.variant = none → e.defaultVariantOf r.component = none

theorem content_of_resolveOwner (h : e.resolveOwner r owner = (r', owner')) :
    r'.content = r.content := by
  unfold resolveOwner at h
  split at h
  · cases h; rfl
  · split at h <;> cases h <;> rfl

/-- A record with a component hands down what it has itself. -/
theorem resolveOwner_owner (hr : e.resolveOwner r owner = (r', owner'))
    (hc : r'.component.isSome) : owner' = ⟨r'.component, r'.variant⟩ := by
  unfold resolveOwner at hr
  split at hr
  · cases hr; rfl
  · split at hr
    · cases hr; rfl
    · cases hr; contradiction

/-- Where a component is handed down, a component is handed on. -/
theorem resolveOwner_hands_on (h : owner.component.isSome) :
    (e.resolveOwner r owner).2.component.isSome := by
  unfold resolveOwner
  split
  · rw [Option.isSome_or, h, Bool.or_true]
  · split
    · assumption
    · exact h

/-- Where a component is handed down, a part gets one. -/
theorem resolveOwner_owned (h : owner.component.isSome) : (e.resolveOwner r owner).1.Owned := by
  unfold resolveOwner
  split
  · intro _
    rw [Option.isSome_or, h, Bool.or_true]
  · rename_i hs
    split
    · intro _
      assumption
    · rename_i hc
      -- a part without a component does not switch
      intro hpart
      rw [Bool.not_eq_true] at hc
      simp [switchesComponent, hc, hpart] at hs

theorem resolveOwner_resolved (e : Engine σ) (r : Record) (owner : Owner) :
    e.Resolved (e.resolveOwner r owner).1 := by
  unfold resolveOwner Resolved
  split
  · intro hv
    exact (Option.or_eq_none_iff.mp hv).2
  · split
    · intro hv
      exact (Option.or_eq_none_iff.mp hv).2
    · rename_i hc
      intro _
      rw [Option.not_isSome_iff_eq_none.mp hc]
      rfl

theorem resolveOwner_of_resolved (h : e.Resolved r) :
    (e.resolveOwner r ⟨r.component, none⟩).1 = r := by
  have hv : r.variant.or (e.defaultVariantOf r.component) = r.variant := by
    cases hr : r.variant with
    | none => rw [h hr]; rfl
    | some v => rfl
  unfold resolveOwner
  split
  · cases r; simp_all
  · split
    · cases r; simp_all
    · rfl

/-- A record that got its owner keeps it where its own component is handed down, with its own
variant or with none. -/
theorem resolveOwner_own {variant : Option String} (h : e.Resolved r) (hc : r.component.isSome)
    (hv : variant = none ∨ variant = r.variant) :
    e.resolveOwner r ⟨r.component, variant⟩ = (r, ⟨r.component, r.variant⟩) := by
  have hdefault : r.variant.or (e.defaultVariantOf r.component) = r.variant := by
    cases hr : r.variant with
    | none => exact h hr
    | some v => rfl
  have hvariant : r.variant.or variant = r.variant := by
    rcases hv with rfl | rfl
    · exact Option.or_none
    · exact Option.or_self
  unfold resolveOwner
  dsimp only
  rw [Option.or_self, hvariant, hdefault, if_pos hc, ite_self]
  cases r
  rfl

theorem switchesComponent_or (own inherited : Option String) :
    switchesComponent (own.or inherited) inherited = switchesComponent own inherited := by
  unfold switchesComponent
  cases own with
  | none => simp
  | some _ => rfl

/-- A record that has the component and the variant that were settled keeps them when its owner is
settled again in the same place, and hands down the same. -/
theorem resolveOwner_again {left : Record} (hr : e.resolveOwner r owner = (r', owner'))
    (hcomponent : left.component = r'.component) (hpart : left.part = r'.part)
    (hvariant : left.variant = r'.variant) : e.resolveOwner left owner = (left, owner') := by
  obtain ⟨key, component, part, variant, params, content, mixins, rendering⟩ := left
  subst hcomponent hpart hvariant
  unfold resolveOwner at hr ⊢
  split at hr
  · rename_i h
    cases hr
    have hvariant : ∀ a b c : Option String, (((a.or b).or c).or b).or c = (a.or b).or c := by
      intro a b c
      cases a <;> cases b <;> cases c <;> rfl
    dsimp only
    rw [switchesComponent_or, if_pos h, Option.or_assoc, Option.or_self, hvariant]
  · rename_i h
    split at hr
    · rename_i hc
      cases hr
      dsimp only
      rw [if_neg h, if_pos hc, Option.or_assoc, Option.or_self]
    · rename_i hc
      cases hr
      rw [if_neg h, if_neg hc]

end Engine

end ComponentTree
