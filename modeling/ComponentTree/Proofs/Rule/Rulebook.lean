import ComponentTree.Rule.Rulebook

/-!
What registrations store.

A registration puts its number in front of the rules of each of its selectors, once, however often
a selector is repeated (`getD_foldl_store`). In a rulebook that was built by registrations every
stored number is the number of a rule (`Built.lt_of_mem_stored`), so the number of the next rule is
new under every selector (`Built.stored_register`), rules are stored newest first
(`Built.stored_descending`), and rules that a record is matched by have bodies
(`Built.body?_isSome`). A rule that is added under selectors which have rules comes in front of
these, and nothing else changes about which rules a record is matched by
(`Built.resolve_register`). One that is added under other selectors than those of a record changes
nothing for this record (`resolve_register_of_notMem`).
-/

namespace ComponentTree

variable {σ : Type}

namespace Rulebook

theorem getD_store (id : RuleId) (m : OrderedMap Selector (List RuleId)) (s t : Selector) :
    ((store id m s).get? t).getD [] =
      if t = s ∧ id ∉ (m.get? t).getD [] then id :: (m.get? t).getD []
      else (m.get? t).getD [] := by
  unfold store
  by_cases hid : id ∈ (m.get? s).getD []
  · rw [if_pos (by simpa using hid), if_neg]
    rintro ⟨rfl, h⟩
    exact h hid
  · rw [if_neg (by simpa using hid), OrderedMap.get?_insert]
    by_cases hts : t = s
    · rw [if_pos hts, hts, if_pos ⟨rfl, hid⟩]
      rfl
    · rw [if_neg hts, if_neg fun h => hts h.1]

theorem getD_foldl_store (id : RuleId) : ∀ (selectors : List Selector)
    (m : OrderedMap Selector (List RuleId)) (t : Selector),
    ((selectors.foldl (store id) m).get? t).getD [] =
      if t ∈ selectors ∧ id ∉ (m.get? t).getD [] then id :: (m.get? t).getD []
      else (m.get? t).getD []
  | [], m, t => by simp
  | s :: rest, m, t => by
    rw [List.foldl_cons, getD_foldl_store id rest, getD_store]
    by_cases hts : t = s
    · subst hts
      by_cases hid : id ∈ (m.get? t).getD [] <;> simp [hid]
    · simp [hts]

theorem stored_register (b : Rulebook σ) (selectors : List Selector)
    (body : RuleM σ (Option Node)) (s : Selector) :
    (b.register selectors body).1.stored s =
      if s ∈ selectors ∧ b.rules.length ∉ b.stored s then b.rules.length :: b.stored s
      else b.stored s :=
  getD_foldl_store b.rules.length selectors b.bySelector s

/-- Rulebooks that registrations and settings of default variants lead to. -/
inductive Built : Rulebook σ → Prop
  | empty : Built {}
  | register {b : Rulebook σ} (h : Built b) (selectors : List Selector)
      (body : RuleM σ (Option Node)) : Built (b.register selectors body).1
  | setDefaultVariant {b : Rulebook σ} (h : Built b) (component variant : String) :
      Built (b.setDefaultVariant component variant)

/-- Every stored number is the number of a rule. -/
theorem Built.lt_of_mem_stored {b : Rulebook σ} (h : b.Built) :
    ∀ {s : Selector} {id : RuleId}, id ∈ b.stored s → id < b.rules.length := by
  induction h with
  | empty => intro s id hid; cases hid
  | @register b _ selectors body ih =>
    intro s id hid
    have hlen : (b.register selectors body).1.rules.length = b.rules.length + 1 :=
      List.length_append ..
    rw [hlen]
    rw [stored_register] at hid
    split at hid
    · rcases List.mem_cons.mp hid with rfl | hid
      · exact Nat.lt_succ_self _
      · exact Nat.lt_succ_of_lt (ih hid)
    · exact Nat.lt_succ_of_lt (ih hid)
  | setDefaultVariant _ _ _ ih => exact ih

/-- The number of the next rule is stored under no selector yet. -/
theorem Built.stored_register {b : Rulebook σ} (h : b.Built) (selectors : List Selector)
    (body : RuleM σ (Option Node)) (s : Selector) :
    (b.register selectors body).1.stored s =
      if s ∈ selectors then b.rules.length :: b.stored s else b.stored s := by
  have hnew : b.rules.length ∉ b.stored s := fun hid => Nat.lt_irrefl _ (h.lt_of_mem_stored hid)
  rw [Rulebook.stored_register]
  simp only [hnew, not_false_eq_true, and_true]

/-- Rules are stored newest first. -/
theorem Built.stored_descending {b : Rulebook σ} (h : b.Built) :
    ∀ s : Selector, (b.stored s).Pairwise (· > ·) := by
  induction h with
  | empty => exact fun _ => .nil
  | @register b h selectors body ih =>
    intro s
    rw [h.stored_register]
    split
    · exact .cons (fun id hid => h.lt_of_mem_stored hid) (ih s)
    · exact ih s
  | setDefaultVariant _ _ _ ih => exact ih

/-- No rule is stored twice under a selector. -/
theorem Built.stored_nodup {b : Rulebook σ} (h : b.Built) (s : Selector) : (b.stored s).Nodup :=
  (h.stored_descending s).imp fun hlt => (Nat.ne_of_lt hlt).symm

/-- The rules that a record is matched by are the ones stored under one of its selectors. -/
theorem resolve_eq_some {b : Rulebook σ} {component : String} {variant part : Option String}
    {s : Selector} {rules : List RuleId}
    (h : b.resolve component variant part = some (s, rules)) :
    s ∈ Selector.forRecord component variant part ∧ b.stored s = rules := by
  obtain ⟨t, ht, hrules⟩ := List.exists_of_findSome?_eq_some h
  obtain ⟨ids, hids, hs⟩ := Option.map_eq_some_iff.mp hrules
  cases hs
  refine ⟨ht, ?_⟩
  unfold rules? at hids
  split at hids
  · cases hids
  · rw [Option.some.injEq] at hids
    exact hids

/-- If there is one rule only, it is the one that records are matched by. -/
theorem Built.resolve_of_single {b : Rulebook σ} (h : b.Built) (hone : b.rules.length = 1)
    {component : String} {variant part : Option String} {s : Selector} {rules : List RuleId}
    (hr : b.resolve component variant part = some (s, rules)) : rules = [0] := by
  obtain ⟨t, -, hrules⟩ := List.exists_of_findSome?_eq_some hr
  obtain ⟨ids, hids, heq⟩ := Option.map_eq_some_iff.mp hrules
  cases heq
  have hzero : ∀ id ∈ b.stored s, id = 0 := fun id hid =>
    Nat.lt_one_iff.mp (hone ▸ h.lt_of_mem_stored hid)
  have hnodup := h.stored_nodup s
  unfold rules? at hids
  split at hids
  · cases hids
  · cases hids
    cases hstored : b.stored s with
    | nil => contradiction
    | cons id rest =>
      rw [hstored, List.forall_mem_cons] at hzero
      rw [hstored, List.nodup_cons] at hnodup
      obtain rfl := hzero.1
      refine congrArg (0 :: ·) (List.eq_nil_iff_forall_not_mem.mpr fun id hid => ?_)
      exact hnodup.1 (hzero.2 id hid ▸ hid)

/-- No record is matched by rules that were never registered. -/
theorem Built.resolve_of_no_rules {b : Rulebook σ} (h : b.Built) (hrules : b.rules = [])
    (component : String) (variant part : Option String) :
    b.resolve component variant part = none := by
  have hstored : ∀ s, b.stored s = [] := fun s =>
    List.eq_nil_iff_forall_not_mem.mpr fun id hid => by
      have hlt := h.lt_of_mem_stored hid
      rw [hrules] at hlt
      exact Nat.not_lt_zero id hlt
  unfold resolve rules?
  simp [hstored]

/-- Every rule that a record is matched by has a body. -/
theorem Built.body?_isSome {b : Rulebook σ} (h : b.Built) {component : String}
    {variant part : Option String} {s : Selector} {rules : List RuleId}
    (hr : b.resolve component variant part = some (s, rules)) {rule : RuleId} (hm : rule ∈ rules) :
    (b.body? rule).isSome := by
  rw [← (resolve_eq_some hr).2] at hm
  simpa [body?] using h.lt_of_mem_stored hm

/-- The number of the next rule is not among those that a record is matched by. -/
theorem Built.ne_of_resolve {b : Rulebook σ} (h : b.Built) {component : String}
    {variant part : Option String} {s : Selector} {rules : List RuleId}
    (hr : b.resolve component variant part = some (s, rules)) :
    ∀ rule ∈ rules, rule ≠ b.rules.length := by
  rw [← (resolve_eq_some hr).2]
  exact fun rule hm => Nat.ne_of_lt (h.lt_of_mem_stored hm)

theorem getElem?_rules_register (b : Rulebook σ) (selectors : List Selector)
    (body : RuleM σ (Option Node)) (id : RuleId) :
    (b.register selectors body).1.rules[id]? =
      if id = b.rules.length then some ⟨selectors, body⟩ else b.rules[id]? := by
  change (b.rules ++ [_])[id]? = _
  rcases Nat.lt_trichotomy id b.rules.length with hlt | rfl | hgt
  · rw [List.getElem?_append_left hlt, if_neg (Nat.ne_of_lt hlt)]
  · rw [List.getElem?_concat_length, if_pos rfl]
  · rw [if_neg (Nat.ne_of_gt hgt), List.getElem?_eq_none (Nat.le_of_lt hgt),
      List.getElem?_eq_none]
    rw [List.length_append]
    exact Nat.succ_le_of_lt hgt

/-- A new rule has its body, and the rules before it keep theirs. -/
theorem body?_register (b : Rulebook σ) (selectors : List Selector)
    (body : RuleM σ (Option Node)) (id : RuleId) :
    (b.register selectors body).1.body? id =
      if id = b.rules.length then some body else b.body? id := by
  rw [body?, getElem?_rules_register]
  split <;> rfl

/-- A new rule is recorded with its selectors, and the rules before it with theirs. -/
theorem selectors?_register (b : Rulebook σ) (selectors : List Selector)
    (body : RuleM σ (Option Node)) (id : RuleId) :
    (b.register selectors body).1.selectors? id =
      if id = b.rules.length then some selectors else b.selectors? id := by
  rw [selectors?, getElem?_rules_register]
  split <;> rfl

/-- A record is matched by the same rules if under its selectors the same rules are stored. -/
theorem resolve_congr {b b' : Rulebook σ} {component : String} {variant part : Option String}
    (h : ∀ s ∈ Selector.forRecord component variant part, b'.stored s = b.stored s) :
    b'.resolve component variant part = b.resolve component variant part := by
  unfold resolve
  generalize Selector.forRecord component variant part = candidates at h
  induction candidates with
  | nil => rfl
  | cons s rest ih =>
    rw [List.forall_mem_cons] at h
    have hrules : b'.rules? s = b.rules? s := by simp only [rules?, h.1]
    simp only [List.findSome?_cons, hrules, ih h.2]

/-- A rule that is registered for no selector of a record changes nothing about the rules that the
record is matched by. -/
theorem resolve_register_of_notMem (b : Rulebook σ) {selectors : List Selector}
    (body : RuleM σ (Option Node)) {component : String} {variant part : Option String}
    (h : ∀ s ∈ Selector.forRecord component variant part, s ∉ selectors) :
    (b.register selectors body).1.resolve component variant part =
      b.resolve component variant part := by
  refine resolve_congr fun s hs => ?_
  rw [stored_register, if_neg fun hmem => h s hs hmem.1]

/-- If a rule is registered for selectors that have rules already, records are matched by the same
selectors as before, and under its selectors the rule comes first. -/
theorem Built.resolve_register {b : Rulebook σ} (h : b.Built) {selectors : List Selector}
    (hs : ∀ s ∈ selectors, b.stored s ≠ []) (body : RuleM σ (Option Node)) (component : String)
    (variant part : Option String) :
    (b.register selectors body).1.resolve component variant part =
      (b.resolve component variant part).map fun found =>
        (found.1, if found.1 ∈ selectors then b.rules.length :: found.2 else found.2) := by
  unfold resolve
  rw [List.map_findSome?]
  congr 1
  funext s
  rw [Function.comp_apply, Option.map_map, rules?, rules?, h.stored_register]
  cases hstored : b.stored s with
  | nil =>
    have hnot : s ∉ selectors := fun hmem => hs s hmem hstored
    rw [if_neg hnot]
    rfl
  | cons id ids =>
    by_cases hmem : s ∈ selectors <;> simp [hmem]

end Rulebook

end ComponentTree
