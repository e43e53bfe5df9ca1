import ComponentTree.Proofs.Json.Distinct

/-!
Repeated member names in data that is read.

A reader writes the members of an object one after the other, so a repeated name keeps its first
place and takes its last value. Main statements: data without repeated names is read as it is
(`asRead_of_isDistinct`), and an object with a repeated name loses members
(`OrderedMap.nodup_of_length_ofList`).
-/

namespace ComponentTree

namespace OrderedMap

variable {κ α : Type} [DecidableEq κ]

theorem size_insert (m : OrderedMap κ α) (k : κ) (v : α) :
    (m.insert k v).size = if k ∈ m.keys then m.size else m.size + 1 := by
  have hkeys := congrArg List.length (m.keys_insert k v)
  rw [keys, List.length_map] at hkeys
  rw [size, hkeys]
  split <;> simp [keys, size]

theorem size_insert_le (m : OrderedMap κ α) (k : κ) (v : α) :
    (m.insert k v).size ≤ m.size + 1 := by
  rw [size_insert]
  split <;> omega

theorem size_insertAll_le (pairs : List (κ × α)) : ∀ m : OrderedMap κ α,
    (m.insertAll pairs).size ≤ m.size + pairs.length := by
  induction pairs with
  | nil => exact fun m => Nat.le_refl _
  | cons e rest ih =>
    intro m
    have hrest := ih (m.insert e.1 e.2)
    have hinsert := m.size_insert_le e.1 e.2
    rw [List.length_cons]
    change ((m.insert e.1 e.2).insertAll rest).size ≤ _
    omega

/-- New keys that are all different go to the end, in their order. -/
theorem entries_insertAll (pairs : List (κ × α)) : ∀ m : OrderedMap κ α,
    (pairs.map Prod.fst).Nodup → (∀ k ∈ pairs.map Prod.fst, k ∉ m.keys) →
      (m.insertAll pairs).entries = m.entries ++ pairs := by
  induction pairs with
  | nil => exact fun m _ _ => (List.append_nil _).symm
  | cons e rest ih =>
    intro m hnodup hnew
    rw [List.map_cons, List.nodup_cons] at hnodup
    rw [List.map_cons, List.forall_mem_cons] at hnew
    have hentries : (m.insert e.1 e.2).entries = m.entries ++ [e] := place_of_notMem e.2 hnew.1
    change ((m.insert e.1 e.2).insertAll rest).entries = _
    rw [ih _ hnodup.2, hentries, List.append_assoc, List.singleton_append]
    intro k hk
    rw [keys, hentries, List.map_append, List.mem_append, List.map_singleton, List.mem_singleton]
    exact not_or.mpr ⟨hnew.2 k hk, ne_of_mem_of_not_mem hk hnodup.1⟩

/-- If every pair makes a new entry, then the keys are all different. -/
theorem nodup_of_size_insertAll (pairs : List (κ × α)) : ∀ m : OrderedMap κ α,
    m.size + pairs.length ≤ (m.insertAll pairs).size →
      (pairs.map Prod.fst).Nodup ∧ ∀ k ∈ pairs.map Prod.fst, k ∉ m.keys := by
  induction pairs with
  | nil => exact fun m _ => ⟨.nil, nofun⟩
  | cons e rest ih =>
    intro m h
    change _ ≤ ((m.insert e.1 e.2).insertAll rest).size at h
    have hrest := size_insertAll_le rest (m.insert e.1 e.2)
    have hinsert := m.size_insert e.1 e.2
    rw [List.length_cons] at h
    split at hinsert
    · omega
    · rename_i hnew
      obtain ⟨hnodup, hfresh⟩ := ih (m.insert e.1 e.2) (by omega)
      rw [keys_insert, if_neg hnew] at hfresh
      rw [List.map_cons, List.nodup_cons, List.forall_mem_cons]
      refine ⟨⟨fun hmem => hfresh e.1 hmem ?_, hnodup⟩, hnew, fun k hk hold => hfresh k hk ?_⟩
      · exact List.mem_append_right _ (List.mem_singleton_self _)
      · exact List.mem_append_left _ hold

theorem entries_ofList {pairs : List (κ × α)} (h : (pairs.map Prod.fst).Nodup) :
    (ofList pairs).entries = pairs :=
  entries_insertAll pairs empty h fun _ _ => List.not_mem_nil

/-- No entry is lost only if the keys are all different. -/
theorem nodup_of_length_ofList {pairs : List (κ × α)}
    (h : pairs.length ≤ (ofList pairs).entries.length) : (pairs.map Prod.fst).Nodup :=
  (nodup_of_size_insertAll pairs empty ((Nat.zero_add pairs.length).symm ▸ h)).1

end OrderedMap

namespace Json

variable {ν : Type}

mutual

/-- The value as it is read: in every object a repeated name keeps its first place and takes its
last value. -/
def asRead : Json ν → Json ν
  | .null => .null
  | .bool b => .bool b
  | .number n => .number n
  | .string s => .string s
  | .array items => .array (asReadAll items)
  | .object members => ofMembers (asReadMembers members)

/-- The values as they are read. -/
def asReadAll : List (Json ν) → List (Json ν)
  | [] => []
  | v :: vs => asRead v :: asReadAll vs

/-- The members with their values as they are read. -/
def asReadMembers : List (String × Json ν) → List (String × Json ν)
  | [] => []
  | (name, v) :: rest => (name, asRead v) :: asReadMembers rest

end

theorem asReadMembers_eq_map (members : List (String × Json ν)) :
    asReadMembers members = members.map fun e => (e.1, e.2.asRead) := by
  induction members with
  | nil => rfl
  | cons e rest ih => rw [asReadMembers, ih, List.map_cons]

theorem map_fst_asReadMembers (members : List (String × Json ν)) :
    (asReadMembers members).map Prod.fst = members.map Prod.fst := by
  rw [asReadMembers_eq_map, List.map_map]
  rfl

mutual

/-- A value without repeated member names is read as it is. -/
theorem asRead_of_isDistinct : ∀ v : Json ν, v.isDistinct = true → v.asRead = v
  | .null, _ | .bool _, _ | .number _, _ | .string _, _ => rfl
  | .array items, h => by rw [asRead, asReadAll_of_allDistinct items h]
  | .object members, h => by
    rw [isDistinct, Bool.and_eq_true, decide_eq_true_iff] at h
    rw [asRead, asReadMembers_of_membersDistinct members h.2, ofMembers,
      OrderedMap.entries_ofList h.1]

theorem asReadAll_of_allDistinct : ∀ vs : List (Json ν), allDistinct vs = true →
    asReadAll vs = vs
  | [], _ => rfl
  | v :: vs, h => by
    rw [allDistinct, Bool.and_eq_true] at h
    rw [asReadAll, asRead_of_isDistinct v h.1, asReadAll_of_allDistinct vs h.2]

theorem asReadMembers_of_membersDistinct : ∀ members : List (String × Json ν),
    membersDistinct members = true → asReadMembers members = members
  | [], _ => rfl
  | (name, v) :: rest, h => by
    rw [membersDistinct, Bool.and_eq_true] at h
    rw [asReadMembers, asRead_of_isDistinct v h.1, asReadMembers_of_membersDistinct rest h.2]

end

end Json

end ComponentTree
