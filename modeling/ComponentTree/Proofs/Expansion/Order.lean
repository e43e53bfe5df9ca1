import ComponentTree.Proofs.Expansion.Fixpoint
import Mathlib.Data.List.Perm.Subperm

/-!
The rules of a record run in their order.

Rules of one record may start far apart: in the outer pass, in passes that other rules ask for, and
again when a copy of the record comes up somewhere else. What keeps them in order is that a rule
gets its mark only after the rules in front of it have theirs, and that a mark of a rule with a body
comes from its start. So while a record is always matched by the rules of one selector, the next
rule to start is the first that has not started yet (`prefix_concat`). Main statement
(`expand_starts_in_order`): over a whole expansion the rules that start on such a record are the
first ones of that selector, in their order, which is newest first.
-/

namespace ComponentTree

variable {σ : Type}

/-- The rules that were started on records of an identity, from the first on. -/
def Ledger.startsOn (l : Ledger) (key : Key) : List RuleId :=
  (l.starts.filter fun x => x.1 = key).map (·.2)

/-- Whenever a record of the identity came up, it was matched by the rules of `s` or by none. -/
def Ledger.MatchedBy (e : Engine σ) (l : Ledger) (key : Key) (s : Selector) : Prop :=
  ∀ pass path component variant part,
    Event.visited pass path key component variant part ∈ l.journal →
      ∀ s' rules, e.rulebook.resolve component variant part = some (s', rules) → s' = s

/-- The rules that were started on the identity are the first ones of `s`, if it was always matched
by those. -/
def Ledger.InOrder (e : Engine σ) (l : Ledger) (key : Key) (s : Selector) : Prop :=
  l.MatchedBy e key s → l.startsOn key <+: e.rulebook.stored s

namespace Ledger

variable {e : Engine σ} {l l' : Ledger} {key : Key} {s : Selector}

theorem mem_startsOn {rule : RuleId} : rule ∈ l.startsOn key ↔ (key, rule) ∈ l.starts := by
  simp [startsOn]

theorem startsOn_concat {x : Key × RuleId} (h : l'.starts = l.starts ++ [x]) :
    l'.startsOn key = l.startsOn key ++ if x.1 = key then [x.2] else [] := by
  unfold startsOn
  rw [h, List.filter_append, List.map_append]
  split
  · rename_i hx; simp [hx]
  · rename_i hx; simp [hx]

theorem MatchedBy.of_grows (h : l'.MatchedBy e key s) (hg : l.GrowsTo l') : l.MatchedBy e key s :=
  fun pass path component variant part hv =>
    h pass path component variant part (hg.journal.subset hv)

end Ledger

/-- A beginning of `front ++ rule :: back` that has all of `front` and does not have `rule` is
`front`, so with `rule` behind it is a beginning, too. -/
theorem prefix_concat {l front back : List RuleId} {rule : RuleId}
    (hn : (front ++ rule :: back).Nodup) (hl : l <+: front ++ rule :: back) (hf : front ⊆ l)
    (hr : rule ∉ l) : l ++ [rule] <+: front ++ rule :: back := by
  have hfront : front <+: front ++ rule :: back := List.prefix_append ..
  have hl' : l = front := by
    rcases List.prefix_or_prefix_of_prefix hl hfront with h | ⟨rest, rfl⟩
    · have hlen : front.length ≤ l.length :=
        (List.Nodup.subperm (List.nodup_append.mp hn).1 hf).length_le
      exact h.eq_of_length_le hlen
    · rw [List.prefix_append_right_inj] at hl
      cases rest with
      | nil => exact List.append_nil front
      | cons x rest =>
        rw [List.cons_prefix_cons] at hl
        exact absurd (by rw [hl.1]; simp) hr
  rw [hl', List.prefix_append_right_inj]
  exact ⟨back, rfl⟩

namespace Engine

open World

variable {e : Engine σ}

/-- A move that marks only rules which are due starts rules in their order. -/
theorem inOrder_move (hb : e.rulebook.Built) {key : Key} {s : Selector} {w w' : World σ}
    (hm : Move e w w')
    (hdue : ∀ x ∈ w'.ledger.marks, x ∈ w.ledger.marks ∨ w.ledger.Due e x.1 x.2)
    (ha : w.ledger.AtMostOnce) (hs : w.ledger.MarksStarted e) (ho : w.ledger.InOrder e key s) :
    w'.ledger.InOrder e key s := by
  intro hmatched
  replace hmatched := hmatched.of_grows hm.grows
  rcases hm.starts with ⟨hstarts, -⟩ | ⟨⟨key', rule⟩, hx, hstarts, hmarks⟩
  · unfold Ledger.startsOn
    rw [hstarts]
    exact ho hmatched
  rw [Ledger.startsOn_concat hstarts]
  split
  · rename_i hkey
    cases hkey
    rcases hdue (key', rule) (by rw [hmarks]; exact List.mem_cons_self ..) with hold | hdue
    · exact absurd hold hx
    obtain ⟨pass, path, component, variant, part, s', front, back, hv, hres, hfront⟩ := hdue
    cases hmatched pass path component variant part hv s' _ hres
    have hstored := (Rulebook.resolve_eq_some hres).2
    have hn := hb.stored_nodup s
    have hpre := ho hmatched
    rw [hstored] at hn hpre ⊢
    refine prefix_concat hn hpre (fun x hxf => ?_) fun hr => ?_
    · have hbody := hb.body?_isSome hres (List.mem_append_left (rule :: back) hxf)
      exact Ledger.mem_startsOn.mpr (hs key' x (hfront x hxf) hbody)
    · exact hx (ha.marked _ (Ledger.mem_startsOn.mp hr))
  · rw [List.append_nil]
    exact ho hmatched

/-- What is carried along a run for the order of rules. -/
structure KeepsOrder (e : Engine σ) (key : Key) (s : Selector) (w w' : World σ) : Prop where
  grows : w.ledger.GrowsTo w'.ledger
  atMostOnce : w.ledger.AtMostOnce → w'.ledger.AtMostOnce
  marksStarted : w.ledger.MarksStarted e → w'.ledger.MarksStarted e
  inOrder : w.ledger.AtMostOnce → w.ledger.MarksStarted e → w.ledger.InOrder e key s →
    w'.ledger.InOrder e key s

theorem admits_keepsOrder (hb : e.rulebook.Built) (key : Key) (s : Selector) :
    e.Admits (e.KeepsOrder key s) where
  refl _ := ⟨.refl _, id, id, fun _ _ => id⟩
  trans h h' := ⟨h.grows.trans h'.grows, h'.atMostOnce ∘ h.atMostOnce,
    h'.marksStarted ∘ h.marksStarted,
    fun ha hs ho => h'.inOrder (h.atMostOnce ha) (h.marksStarted hs) (h.inOrder ha hs ho)⟩
  grows h := h.grows
  move hm hdue := ⟨hm.grows, hm.atMostOnce, hm.marksStarted, inOrder_move hb hm hdue⟩

/-- If a record is matched by the rules of one selector whenever it comes up in an expansion, be it
in the outer pass or in one that a rule asks for, then the rules that start on its identity are the
first ones of that selector, each once and in their order, which is newest first. This also holds of
an expansion that fails or is cut off. -/
theorem expand_starts_in_order (hb : e.rulebook.Built) {fuel : Nat} {nextKey : Key} {memory : σ}
    {root : Node} {key : Key} {s : Selector}
    (h : (e.expand fuel nextKey memory root).ledger.MatchedBy e key s) :
    (e.expand fuel nextKey memory root).ledger.startsOn key <+: e.rulebook.stored s ∧
      (e.rulebook.stored s).Pairwise (· > ·) := by
  obtain ⟨w, hw, hl⟩ := (admits_keepsOrder hb key s).expand fuel nextKey memory root
  rw [hl] at h ⊢
  refine ⟨hw.inOrder ⟨List.nodup_nil, by simp [Ledger.starts]⟩ (by simp [Ledger.MarksStarted])
    (fun _ => ?_) h, hb.stored_descending s⟩
  exact List.nil_prefix

end Engine

/-- The selector of boxes without a variant. -/
def Selector.box : Selector := ⟨"box", .none, none⟩

/-- An engine with three rules for a box. The newest writes an attribute, the next one runs the
oldest ahead and puts a plain record around what it left. -/
def Engine.layered : Engine Unit where
  rulebook :=
    ((((({} : Rulebook Unit).register [.box] (.write (.tag "div") (.done none))).1.register [.box]
      (.runAhead fun _ => .look fun c =>
        .done (some (.record { Record.blank with key := 2, content := c.tree })))).1).register
      [.box] (.write (.attr "role" (.text "note")) (.done none))).1

/-- The oldest rule starts in a pass of its own, and the box comes up a third time in the record
around it; its rules have started in their order. -/
theorem Engine.layered_starts_in_order : layered.rulebook.Built ∧
    (layered.expand 5 3 () (.record .box)).ledger.MatchedBy layered 1 .box ∧
    (layered.expand 5 3 () (.record .box)).ledger.startsOn 1 = [2, 1, 0] ∧
    (layered.expand 5 3 () (.record .box)).ledger.startsOn 1 <+: layered.rulebook.stored .box := by
  have hb : layered.rulebook.Built := .register (.register (.register .empty _ _) _ _) _ _
  have hjournal : (layered.expand 5 3 () (.record .box)).ledger.journal =
      [.visited 0 [.content] 1 "box" none none, .replaced 0 [] 1 1,
        .started 1 [] 1 0 (.listed 0 1), .visited 1 [] 1 "box" none none,
        .started 0 [] 1 1 (.listed 0 1), .started 0 [] 1 2 (.listed 0 1),
        .visited 0 [] 1 "box" none none] := by decide +kernel
  have hmatched : (layered.expand 5 3 () (.record .box)).ledger.MatchedBy layered 1 .box := by
    intro pass path component variant part hv s' rules hres
    rw [hjournal] at hv
    have hbox : component = "box" ∧ variant = none ∧ part = none := by
      simp only [List.mem_cons, Event.visited.injEq, reduceCtorEq, List.not_mem_nil] at hv
      tauto
    obtain ⟨rfl, rfl, rfl⟩ := hbox
    have hbox : layered.rulebook.resolve "box" none none = some (.box, [2, 1, 0]) := by
      decide +kernel
    rw [hbox] at hres
    cases hres
    rfl
  exact ⟨hb, hmatched, by decide +kernel, (expand_starts_in_order hb hmatched).1⟩

end ComponentTree
