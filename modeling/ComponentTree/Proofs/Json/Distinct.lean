import ComponentTree.Json.Literal
import ComponentTree.Proofs.Number.Binary64

/-!
Literal data without repeated member names.

An object that was read has no member name twice, at any depth. Main statement: literal data without
repeated member names is equal to itself (`Literal.same_self`), since a member is found where it
stands.
-/

namespace ComponentTree

/-! ### Entries of ordered maps -/

namespace OrderedMap

variable {κ α : Type} [DecidableEq κ]

theorem find_of_mem {es : List (κ × α)} (h : (es.map Prod.fst).Nodup) {e : κ × α} (he : e ∈ es) :
    find e.1 es = some e.2 := by
  induction es with
  | nil => cases he
  | cons head rest ih =>
    rw [List.map_cons, List.nodup_cons] at h
    rcases List.mem_cons.mp he with rfl | he
    · rw [find, if_pos rfl]
    · have hne : head.1 ≠ e.1 := fun heq => h.1 (heq ▸ List.mem_map_of_mem he)
      rw [find, if_neg hne]
      exact ih h.2 he

/-- A key that does not occur goes to the end. -/
theorem place_of_notMem {k : κ} (v : α) {es : List (κ × α)} (h : k ∉ es.map Prod.fst) :
    place k v es = es ++ [(k, v)] := by
  induction es with
  | nil => rfl
  | cons e rest ih =>
    rw [List.map_cons, List.mem_cons, not_or] at h
    rw [place, if_neg (Ne.symm h.1), ih h.2, List.cons_append]

omit [DecidableEq κ] in
theorem eq_of_entries {m n : OrderedMap κ α} (h : m.entries = n.entries) : m = n := by
  cases m
  cases n
  cases h
  rfl

theorem sameBy_self {eq : α → α → Bool} {m : OrderedMap κ α}
    (h : ∀ e ∈ m.entries, eq e.2 e.2 = true) : sameBy eq m m = true := by
  rw [sameBy, BEq.rfl, Bool.true_and, List.all_eq_true]
  intro e he
  rw [get?, find_of_mem m.nodup he, Option.any_some]
  exact h e he

end OrderedMap

/-! ### Distinct member names -/

namespace Json

variable {ν : Type}

mutual

/-- Whether no object in the value has a member name twice. -/
def isDistinct : Json ν → Bool
  | .array items => allDistinct items
  | .object members => decide (members.map Prod.fst).Nodup && membersDistinct members
  | .null | .bool _ | .number _ | .string _ => true

/-- Whether no object in the values has a member name twice. -/
def allDistinct : List (Json ν) → Bool
  | [] => true
  | v :: vs => isDistinct v && allDistinct vs

/-- Whether no object in the values of the members has a member name twice. -/
def membersDistinct : List (String × Json ν) → Bool
  | [] => true
  | (_, v) :: rest => isDistinct v && membersDistinct rest

end

theorem membersDistinct_iff {members : List (String × Json ν)} :
    membersDistinct members = true ↔ ∀ e ∈ members, e.2.isDistinct = true := by
  induction members with
  | nil => simp [membersDistinct]
  | cons e rest ih => rw [membersDistinct, Bool.and_eq_true, ih, List.forall_mem_cons]

theorem isDistinct_object {members : List (String × Json ν)} :
    (object members).isDistinct = true ↔
      (members.map Prod.fst).Nodup ∧ ∀ e ∈ members, e.2.isDistinct = true := by
  rw [isDistinct, Bool.and_eq_true, decide_eq_true_iff, membersDistinct_iff]

mutual

/-- A value without repeated member names is equal to itself. -/
theorem sameBy_self {eq : ν → ν → Bool} (heq : ∀ n, eq n n = true) :
    ∀ v : Json ν, v.isDistinct = true → v.sameBy eq v = true
  | .null, _ => rfl
  | .bool b, _ => beq_self_eq_true b
  | .number n, _ => heq n
  | .string s, _ => beq_self_eq_true s
  | .array items, h => by
    rw [isDistinct] at h
    rw [sameBy]
    exact sameItems_self heq items h
  | .object members, h => by
    rw [isDistinct, Bool.and_eq_true, decide_eq_true_iff] at h
    rw [sameBy, BEq.rfl, Bool.true_and]
    exact sameMembers_of_find heq members h.2 fun e he => OrderedMap.find_of_mem h.1 he

theorem sameItems_self {eq : ν → ν → Bool} (heq : ∀ n, eq n n = true) :
    ∀ vs : List (Json ν), allDistinct vs = true → sameItems eq vs vs = true
  | [], _ => rfl
  | v :: vs, h => by
    rw [allDistinct, Bool.and_eq_true] at h
    rw [sameItems, sameBy_self heq v h.1, sameItems_self heq vs h.2, Bool.and_self]

theorem sameMembers_of_find {eq : ν → ν → Bool} (heq : ∀ n, eq n n = true)
    {others : List (String × Json ν)} :
    ∀ members : List (String × Json ν), membersDistinct members = true →
      (∀ e ∈ members, OrderedMap.find e.1 others = some e.2) →
        sameMembers eq members others = true
  | [], _, _ => rfl
  | (name, v) :: rest, h, hfind => by
    rw [membersDistinct, Bool.and_eq_true] at h
    rw [List.forall_mem_cons] at hfind
    rw [sameMembers, hfind.1]
    dsimp only
    rw [sameBy_self heq v h.1, sameMembers_of_find heq rest h.2 hfind.2, Bool.and_self]

end

theorem Number.same_self (n : Number) : n.same n = true := by
  cases n with
  | integer n => exact beq_self_eq_true n.value
  | float x => exact x.same_self

end Json

theorem Literal.same_self {v : Literal} (h : v.isDistinct = true) : v.same v = true :=
  Json.sameBy_self Json.Number.same_self v h

end ComponentTree
