/-!
Finite maps that remember the order in which their keys were first inserted.

Writing a key again keeps its place and replaces its value; erasing a key closes the gap. The list
of keys never repeats, which the type itself records. Main statements: what a lookup gives after an
insertion, and where the inserted key stands.
-/

namespace ComponentTree

/-- A map given by its entries in insertion order, each key at most once. -/
structure OrderedMap (κ α : Type) where
  entries : List (κ × α)
  nodup : (entries.map Prod.fst).Nodup

namespace OrderedMap

variable {κ α : Type} [DecidableEq κ]

/-- The entries with `k` bound to `v`: in place if `k` occurs, at the end otherwise. -/
def place (k : κ) (v : α) : List (κ × α) → List (κ × α)
  | [] => [(k, v)]
  | e :: rest => if e.1 = k then (k, v) :: rest else e :: place k v rest

theorem map_fst_place (k : κ) (v : α) (es : List (κ × α)) :
    (place k v es).map Prod.fst =
      if k ∈ es.map Prod.fst then es.map Prod.fst else es.map Prod.fst ++ [k] := by
  induction es with
  | nil => simp [place]
  | cons e rest ih =>
    by_cases h : e.1 = k
    · simp [place, h]
    · have h' : ¬ k = e.1 := fun e => h e.symm
      simp only [place, if_neg h, List.map_cons, ih, List.mem_cons, h', false_or]
      split <;> simp

theorem nodup_place {k : κ} {v : α} {es : List (κ × α)} (h : (es.map Prod.fst).Nodup) :
    ((place k v es).map Prod.fst).Nodup := by
  rw [map_fst_place]
  split
  · exact h
  · rename_i hk
    rw [List.nodup_append]
    refine ⟨h, by simp, ?_⟩
    intro a ha b hb
    rw [List.mem_singleton] at hb
    rintro rfl
    exact hk (hb ▸ ha)

/-- The value of the first entry whose key is `k`. -/
def find (k : κ) : List (κ × α) → Option α
  | [] => none
  | e :: rest => if e.1 = k then some e.2 else find k rest

theorem find_place (k k' : κ) (v : α) (es : List (κ × α)) :
    find k' (place k v es) = if k' = k then some v else find k' es := by
  induction es with
  | nil => grind [place, find]
  | cons e rest ih => grind [place, find]

/-- The map with no entries. -/
def empty : OrderedMap κ α := ⟨[], List.nodup_nil⟩

instance : Inhabited (OrderedMap κ α) := ⟨empty⟩

/-- Binds `k` to `v`, keeping the place of a key that is already there. -/
def insert (m : OrderedMap κ α) (k : κ) (v : α) : OrderedMap κ α :=
  ⟨place k v m.entries, nodup_place m.nodup⟩

/-- The value bound to `k`, if any. -/
def get? (m : OrderedMap κ α) (k : κ) : Option α := find k m.entries

/-- Whether `k` is bound. -/
def contains (m : OrderedMap κ α) (k : κ) : Bool := (m.get? k).isSome

/-- The keys in insertion order. -/
def keys (m : OrderedMap κ α) : List κ := m.entries.map Prod.fst

/-- The number of entries. -/
def size (m : OrderedMap κ α) : Nat := m.entries.length

/-- Whether there are no entries. -/
def isEmpty (m : OrderedMap κ α) : Bool := m.entries.isEmpty

/-- Removes `k`, keeping the order of the other entries. -/
def erase (m : OrderedMap κ α) (k : κ) : OrderedMap κ α :=
  ⟨m.entries.filter (fun e => e.1 ≠ k),
    (List.Sublist.map Prod.fst List.filter_sublist).nodup m.nodup⟩

/-- Inserts the pairs one after the other, so a repeated key keeps its first place and takes its
last value. -/
def insertAll (m : OrderedMap κ α) (pairs : List (κ × α)) : OrderedMap κ α :=
  pairs.foldl (fun m e => m.insert e.1 e.2) m

/-- The map that arises by inserting the pairs into the empty map. -/
def ofList (pairs : List (κ × α)) : OrderedMap κ α := empty.insertAll pairs

/-- Two maps agree when they bind the same keys to values that `eq` accepts, in whatever order. -/
def sameBy (eq : α → α → Bool) (m n : OrderedMap κ α) : Bool :=
  m.size == n.size && m.entries.all fun e => (n.get? e.1).any (eq e.2)

@[simp] theorem get?_empty (k : κ) : (empty : OrderedMap κ α).get? k = none := rfl

theorem get?_insert (m : OrderedMap κ α) (k k' : κ) (v : α) :
    (m.insert k v).get? k' = if k' = k then some v else m.get? k' :=
  find_place k k' v m.entries

theorem keys_insert (m : OrderedMap κ α) (k : κ) (v : α) :
    (m.insert k v).keys = if k ∈ m.keys then m.keys else m.keys ++ [k] :=
  map_fst_place k v m.entries

end OrderedMap

end ComponentTree
