import ComponentTree.Proofs.Expansion.Fixpoint
import ComponentTree.Proofs.Expansion.Provenance
import ComponentTree.Proofs.Expansion.Sizes
import Mathlib.Data.Finset.Prod

/-!
Rules that only rearrange what there is.

Rules may wrap a record, copy it, or move it to another place. As long as all records that they put
into the tree are plain or have the identity of a record of the root, only identities of the root
come up with a component, and a rule starts on each of them at most once. So there are only so many
starts (`starts_length_le`), and between two starts the sites only get smaller. Main statement
(`recycling_ends`): such an expansion ends, with the guard on or off.
-/

namespace ComponentTree

variable {σ : Type}

/-! ### How many rules can start -/

/-- Every start is one of a rule that there is, on an identity that came up. -/
def Ledger.StartsVisited (e : Engine σ) (l : Ledger) : Prop :=
  ∀ key rule, (key, rule) ∈ l.starts → rule < e.rulebook.size ∧
    ∃ pass path component variant part,
      Event.visited pass path key component variant part ∈ l.journal

/-- A move starts only rules that there are. -/
theorem World.Move.starts_body {e : Engine σ} {w w' : World σ} (h : Move e w w')
    {x : Key × RuleId} (hx : x ∈ w'.ledger.starts) :
    x ∈ w.ledger.starts ∨ (e.rulebook.body? x.2).isSome := by
  cases h with
  | start pass path key rule position hm hb =>
    rw [starts_log, starts_mark, List.mem_append] at hx
    refine hx.imp id fun hx => ?_
    rw [List.mem_singleton.mp hx]
    exact hb
  | visit | replace | identify =>
    rw [starts_log_of_none _ rfl] at hx
    exact Or.inl hx
  | skip | issue | beginPass | remember => exact Or.inl hx

namespace Engine

open World

variable {e : Engine σ}

/-- What is carried along a run for the starts of rules. -/
structure KeepsVisited (e : Engine σ) (w w' : World σ) : Prop where
  grows : w.ledger.GrowsTo w'.ledger
  startsVisited : w.ledger.StartsVisited e → w'.ledger.StartsVisited e

theorem admits_keepsVisited (e : Engine σ) : e.Admits e.KeepsVisited where
  refl _ := ⟨.refl _, id⟩
  trans h h' := ⟨h.grows.trans h'.grows, h'.startsVisited ∘ h.startsVisited⟩
  grows h := h.grows
  move {w w'} hm hdue := by
    refine ⟨hm.grows, fun hw key rule hs => ?_⟩
    by_cases hold : (key, rule) ∈ w.ledger.starts
    · obtain ⟨hrule, pass, path, component, variant, part, hv⟩ := hw key rule hold
      exact ⟨hrule, pass, path, component, variant, part, hm.grows.journal.subset hv⟩
    have hbody := (hm.starts_body hs).resolve_left hold
    refine ⟨by simpa [Rulebook.body?, Rulebook.size] using hbody, ?_⟩
    -- the start is new, so it was due: its identity came up before
    rcases hm.starts with ⟨hstarts, -⟩ | ⟨x, hx, hstarts, hmarks⟩
    · exact absurd (hstarts ▸ hs) hold
    rw [hstarts, List.mem_append, List.mem_singleton] at hs
    obtain rfl := hs.resolve_left hold
    rcases hdue (key, rule) (by rw [hmarks]; exact List.mem_cons_self ..) with hmark | hdue
    · exact absurd hmark hx
    obtain ⟨pass, path, component, variant, part, s, front, back, hv, -⟩ := hdue
    exact ⟨pass, path, component, variant, part, hm.grows.journal.subset hv⟩

theorem expand_startsVisited (e : Engine σ) (fuel : Nat) (nextKey : Key) (memory : σ)
    (root : Node) : (e.expand fuel nextKey memory root).ledger.StartsVisited e := by
  obtain ⟨w, hw, hl⟩ := e.admits_keepsVisited.expand fuel nextKey memory root
  rw [hl]
  exact hw.startsVisited (by simp [Ledger.StartsVisited, Ledger.starts])

/-- If only identities from a set come up, there are no more starts than pairs of an identity and a
rule. -/
theorem starts_length_le {fuel : Nat} {nextKey : Key} {memory : σ} {root : Node} {keys : Finset Key}
    (h : ∀ pass path key component variant part,
      Event.visited pass path key component variant part ∈
        (e.expand fuel nextKey memory root).ledger.journal → key ∈ keys) :
    (e.expand fuel nextKey memory root).ledger.starts.length ≤ keys.card * e.rulebook.size := by
  have hsub : (e.expand fuel nextKey memory root).ledger.starts.toFinset ⊆
      keys ×ˢ Finset.range e.rulebook.size := by
    intro x hx
    obtain ⟨hrule, pass, path, component, variant, part, hv⟩ :=
      e.expand_startsVisited fuel nextKey memory root x.1 x.2 (List.mem_toFinset.mp hx)
    exact Finset.mem_product.mpr
      ⟨h pass path x.1 component variant part hv, Finset.mem_range.mpr hrule⟩
  have hcard := Finset.card_le_card hsub
  rwa [Finset.card_product, Finset.card_range, List.toFinset_card_of_nodup
    (e.expand_atMostOnce fuel nextKey memory root).nodup] at hcard

/-! ### Expansions with only so many starts -/

/-- No more than `n` rules have started. -/
def startsAtMost (n : Nat) : Ledger.Bound where
  holds l := l.starts.length ≤ n
  of_grows h hn := Nat.le_trans h.starts.length_le hn

/-- Sites get smaller, and every time that more comes up some start is used up. -/
def startsDescent (e : Engine σ) (n : Nat) : e.Descent (startsAtMost n) where
  Rank := Nat
  lt := (· < ·)
  wf := wellFounded_lt
  rank _ node := node.size
  budget l := n - l.starts.length
  budget_le _ h := Nat.sub_le_sub_left h.starts.length_le n
  budget_lt hin h := Nat.sub_lt_sub_left (Nat.lt_of_lt_of_le h.starts hin) h.starts
  rank_lt := by
    intro fuel pass site w deed w' hd hp hin
    rcases hd.idle_or_started with ⟨hrep, hcontent⟩ | hstart
    · refine Or.inr fun s hs => hd.size_lt hp hrep (fun f l h => ?_) hs
      rw [hcontent f l h]
    · exact Or.inl (Nat.sub_lt_sub_left (Nat.lt_of_lt_of_le hstart.starts hin) hstart.starts)

/-- If all records that rules put into content or into what they answer with are plain or have the
identity of a record of the root, the expansion ends, with the guard on or off, and starts no more
rules than there are pairs of an identity in the root and a rule. What rules put in is what the
expansion notes that records it. -/
theorem recycling_ends (e : Engine σ) (nextKey : Key) (memory : σ) (root : Node)
    (h : ∀ fuel, ∀ tree ∈ (e.recording.expand fuel nextKey (memory, []) root).memory.2,
      ∀ path r, tree.at? path = some (.record r) →
        (r.component = none ∧ r.part = none) ∨ r.key ∈ root.keys) :
    ∃ x, e.EndsWith nextKey memory root x ∧
      x.ledger.starts.length ≤ root.keys.toFinset.card * e.rulebook.size := by
  have hvisits : ∀ fuel pass path key component variant part,
      Event.visited pass path key component variant part ∈
        (e.expand fuel nextKey memory root).ledger.journal → key ∈ root.keys.toFinset := by
    intro fuel pass path key component variant part hv
    rw [List.mem_toFinset]
    rw [← (e.recording_expand fuel nextKey memory root).2] at hv
    obtain ⟨tree, htree, q, r, hr, hplain, rfl⟩ := e.recording_visits fuel nextKey memory root
      pass path key component variant part hv
    rcases List.mem_cons.mp htree with rfl | htree
    · exact tree.reachedKeys_sublist.subset (Node.key_mem_reachedKeys hr)
    · exact (h fuel tree htree q r hr).resolve_left hplain
  have hbound : ∀ fuel, (e.expand fuel nextKey memory root).ledger.starts.length ≤
      root.keys.toFinset.card * e.rulebook.size := fun fuel => starts_length_le (hvisits fuel)
  obtain ⟨x, hx⟩ := (e.startsDescent _).expand_ends hbound
  obtain ⟨n, hn⟩ := hx.2
  exact ⟨x, hx, hn n (Nat.le_refl n) ▸ hbound n⟩

end Engine

/-- A box is wrapped into a plain record and comes up again inside it; its rule starts once. -/
theorem Engine.wrapping_ends :
    (∀ fuel, ∀ tree ∈ (wrapping.recording.expand fuel 3 ((), []) (.record .box)).memory.2,
      ∀ path r, tree.at? path = some (.record r) →
        (r.component = none ∧ r.part = none) ∨ r.key ∈ (Node.record .box).keys) ∧
    ∃ x, wrapping.EndsWith 3 () (.record .box) x ∧ x.ledger.starts.length ≤ 1 := by
  have hnotes : ∀ fuel < 6,
      (wrapping.recording.expand fuel 3 ((), []) (.record .box)).memory.2.all
        (Node.allRecords fun r => decide
          ((r.component = none ∧ r.part = none) ∨ r.key ∈ (Node.record .box).keys)) = true := by
    decide +kernel
  have hends : (wrapping.recording.expand 5 3 ((), []) (.record .box)).answer ≠
      .error .exhausted := Expansion.ne_exhausted (by decide +kernel)
  have hrecycles : ∀ fuel,
      ∀ tree ∈ (wrapping.recording.expand fuel 3 ((), []) (.record .box)).memory.2,
        ∀ path r, tree.at? path = some (.record r) →
          (r.component = none ∧ r.part = none) ∨ r.key ∈ (Node.record .box).keys := by
    intro fuel tree htree path r hr
    have hall : ∀ n < 6,
        tree ∈ (wrapping.recording.expand n 3 ((), []) (.record .box)).memory.2 →
          (r.component = none ∧ r.part = none) ∨ r.key ∈ (Node.record .box).keys := fun n hn ht =>
      of_decide_eq_true (Node.allRecords_at? (List.all_eq_true.mp (hnotes n hn) tree ht) hr)
    by_cases hfuel : fuel < 6
    · exact hall fuel hfuel htree
    · rw [expand_eq_of_le (by omega : 5 ≤ fuel) hends] at htree
      exact hall 5 (by decide) htree
  obtain ⟨x, hx, hstarts⟩ := recycling_ends wrapping 3 () (.record .box) hrecycles
  exact ⟨hrecycles, x, hx, hstarts⟩

end ComponentTree
