import ComponentTree.Proofs.Expansion.Moves

/-!
Every rule runs at most once on a record.

The marks of the ledger belong to the whole expansion: the outer pass and all passes that rules ask
for look at the same ones. A rule starts only where it has no mark, and gets its mark with the
start. So the starts are always among the marks, and no start repeats (`AtMostOnce`), whatever tree
or pass a copy of the record sits in.
-/

namespace ComponentTree

variable {σ : Type}

/-- The record and the rule of an event that is the start of a rule. -/
def Event.start? : Event → Option (Key × RuleId)
  | .started _ _ key rule _ => some (key, rule)
  | _ => none

/-- The rules that were started, each with the record it ran on, from the first on. -/
def Ledger.starts (l : Ledger) : List (Key × RuleId) := l.journal.reverse.filterMap Event.start?

/-- No rule started twice on a record, and each start left its mark. -/
structure Ledger.AtMostOnce (l : Ledger) : Prop where
  nodup : l.starts.Nodup
  marked : ∀ x ∈ l.starts, x ∈ l.marks

/-- Every mark of a rule that has a body comes from a start of the rule. -/
def Ledger.MarksStarted (e : Engine σ) (l : Ledger) : Prop :=
  ∀ key rule, (key, rule) ∈ l.marks → (e.rulebook.body? rule).isSome → (key, rule) ∈ l.starts

namespace World

variable {e : Engine σ}

theorem starts_log (w : World σ) (event : Event) :
    (w.log event).ledger.starts = w.ledger.starts ++ event.start?.toList := by
  simp only [Ledger.starts, log_journal, List.reverse_cons, List.filterMap_append]
  cases h : event.start? <;> simp [h]

theorem starts_log_of_none (w : World σ) {event : Event} (h : event.start? = none) :
    (w.log event).ledger.starts = w.ledger.starts := by
  rw [starts_log, h]
  exact List.append_nil _

theorem starts_mark (w : World σ) (key : Key) (rule : RuleId) :
    (w.mark key rule).ledger.starts = w.ledger.starts := rfl

/-- A move leaves the starts alone, or it adds the one that it marks. -/
theorem Move.starts {w w' : World σ} (h : Move e w w') :
    w'.ledger.starts = w.ledger.starts ∧
        (w'.ledger.marks = w.ledger.marks ∨ ∃ x, (e.rulebook.body? x.2) = none ∧
          w'.ledger.marks = x :: w.ledger.marks) ∨
      ∃ x, x ∉ w.ledger.marks ∧ w'.ledger.starts = w.ledger.starts ++ [x] ∧
        w'.ledger.marks = x :: w.ledger.marks := by
  cases h with
  | start pass path key rule position hm =>
    exact Or.inr ⟨(key, rule), hm, by rw [starts_log, starts_mark]; rfl, rfl⟩
  | skip key rule hm hb => exact Or.inl ⟨starts_mark .., Or.inr ⟨(key, rule), hb, rfl⟩⟩
  | visit => exact Or.inl ⟨starts_log_of_none _ rfl, Or.inl rfl⟩
  | replace => exact Or.inl ⟨starts_log_of_none _ rfl, Or.inl rfl⟩
  | identify => exact Or.inl ⟨starts_log_of_none _ rfl, Or.inl rfl⟩
  | issue tree => exact Or.inl ⟨rfl, Or.inl rfl⟩
  | beginPass => exact Or.inl ⟨rfl, Or.inl rfl⟩
  | remember memory => exact Or.inl ⟨rfl, Or.inl rfl⟩

theorem Move.atMostOnce {w w' : World σ} (h : Move e w w') (hw : w.ledger.AtMostOnce) :
    w'.ledger.AtMostOnce := by
  rcases h.starts with ⟨hs, hm⟩ | ⟨x, hx, hs, hm⟩
  · refine ⟨by rw [hs]; exact hw.nodup, fun y hy => ?_⟩
    rw [hs] at hy
    rcases hm with hm | ⟨x, -, hm⟩ <;> rw [hm]
    · exact hw.marked y hy
    · exact List.mem_cons_of_mem x (hw.marked y hy)
  · -- the new start has no mark yet, so it is none of the old ones
    have hnew : x ∉ w.ledger.starts := fun h => hx (hw.marked x h)
    refine ⟨?_, fun y hy => ?_⟩
    · rw [hs, List.nodup_append]
      refine ⟨hw.nodup, by simp, fun a ha b hb => ?_⟩
      rw [List.mem_singleton] at hb
      rintro rfl
      exact hnew (hb ▸ ha)
    · rw [hs, List.mem_append, List.mem_singleton] at hy
      rw [hm, List.mem_cons]
      exact hy.symm.imp id (hw.marked y)

theorem Move.marksStarted {w w' : World σ} (h : Move e w w') (hw : w.ledger.MarksStarted e) :
    w'.ledger.MarksStarted e := by
  intro key rule hk hb
  rcases h.starts with ⟨hs, hm⟩ | ⟨x, -, hs, hm⟩
  · rw [hs]
    rcases hm with hm | ⟨x, hx, hm⟩ <;> rw [hm] at hk
    · exact hw key rule hk hb
    · rcases List.mem_cons.mp hk with rfl | hk
      · rw [hx] at hb; cases hb
      · exact hw key rule hk hb
  · rw [hs, List.mem_append, List.mem_singleton]
    rw [hm] at hk
    rcases List.mem_cons.mp hk with rfl | hk
    · exact Or.inr rfl
    · exact Or.inl (hw key rule hk hb)

end World

namespace Engine

theorem expand_atMostOnce (e : Engine σ) (fuel : Nat) (nextKey : Key) (memory : σ) (root : Node) :
    (e.expand fuel nextKey memory root).ledger.AtMostOnce := by
  obtain ⟨w, hw, hl⟩ := e.expand_moves fuel nextKey memory root
  rw [hl]
  exact hw.keeps (P := fun u => u.ledger.AtMostOnce) (fun _ _ hm => hm.atMostOnce)
    ⟨List.nodup_nil, by simp [Ledger.starts]⟩

theorem expand_marksStarted (e : Engine σ) (fuel : Nat) (nextKey : Key) (memory : σ)
    (root : Node) : (e.expand fuel nextKey memory root).ledger.MarksStarted e := by
  obtain ⟨w, hw, hl⟩ := e.expand_moves fuel nextKey memory root
  rw [hl]
  exact hw.keeps (P := fun u => u.ledger.MarksStarted e) (fun _ _ hm => hm.marksStarted)
    (by simp [Ledger.MarksStarted])

/-- In one expansion no rule is started twice on records of one identity, counting the outer pass
and every pass that a rule asks for; this also holds of an expansion that fails or is cut off. -/
theorem expand_starts_nodup (e : Engine σ) (fuel : Nat) (nextKey : Key) (memory : σ)
    (root : Node) : (e.expand fuel nextKey memory root).ledger.starts.Nodup :=
  (e.expand_atMostOnce fuel nextKey memory root).nodup

end Engine

end ComponentTree
