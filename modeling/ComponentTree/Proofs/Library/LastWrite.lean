import ComponentTree.Library.Keysets
import Mathlib.Data.List.Induction

/-!
Keysets against the history of their edits.

Adding a keyset discards what stood under its name, while a computed entry joins what is there, so
what a keyset holds goes back to its last addition and no further. Everything written since then has
gone into it in order (`getD_sets_after`), whatever other keysets or languages came in between. Main
statement (`lookup_after`): a lookup finds the last value that was written to its key since then. It
misses the key if there is none, and the keyset if no edit was ever for it.
-/

namespace ComponentTree

/-! ### Pairs that are inserted one after the other -/

namespace OrderedMap

variable {κ α : Type} [DecidableEq κ]

theorem insertAll_append (m : OrderedMap κ α) (pairs more : List (κ × α)) :
    m.insertAll (pairs ++ more) = (m.insertAll pairs).insertAll more :=
  List.foldl_append

theorem get?_insertAll_of_notMem {k : κ} {pairs : List (κ × α)} (h : k ∉ pairs.map Prod.fst) :
    ∀ m : OrderedMap κ α, (m.insertAll pairs).get? k = m.get? k := by
  induction pairs with
  | nil => exact fun _ => rfl
  | cons e rest ih =>
    intro m
    rw [List.map_cons, List.mem_cons, not_or] at h
    exact (ih h.2 (m.insert e.1 e.2)).trans ((m.get?_insert e.1 k e.2).trans (if_neg h.1))

/-- A repeated key takes its last value. -/
theorem get?_insertAll_of_last (m : OrderedMap κ α) {k : κ} (v : α) (earlier : List (κ × α))
    {later : List (κ × α)} (h : k ∉ later.map Prod.fst) :
    (m.insertAll (earlier ++ (k, v) :: later)).get? k = some v := by
  rw [insertAll_append]
  change (((m.insertAll earlier).insert k v).insertAll later).get? k = some v
  rw [get?_insertAll_of_notMem h, get?_insert, if_pos rfl]

omit [DecidableEq κ] in
theorem exists_last_of_mem {k : κ} {pairs : List (κ × α)} (h : k ∈ pairs.map Prod.fst) :
    ∃ earlier v later, pairs = earlier ++ (k, v) :: later ∧ k ∉ later.map Prod.fst := by
  induction pairs with
  | nil => cases h
  | cons e rest ih =>
    by_cases hrest : k ∈ rest.map Prod.fst
    · obtain ⟨earlier, v, later, rfl, hlater⟩ := ih hrest
      exact ⟨e :: earlier, v, later, rfl, hlater⟩
    · rw [List.map_cons, List.mem_cons, or_iff_left hrest] at h
      exact ⟨[], e.2, rest, by rw [h, List.nil_append], hrest⟩

theorem get?_ofList_eq_none_iff {k : κ} {pairs : List (κ × α)} :
    (ofList pairs).get? k = none ↔ k ∉ pairs.map Prod.fst := by
  refine ⟨fun h hmem => ?_, fun h => get?_insertAll_of_notMem h empty⟩
  obtain ⟨earlier, v, later, rfl, hlater⟩ := exists_last_of_mem hmem
  rw [ofList, get?_insertAll_of_last empty v earlier hlater] at h
  cases h

theorem get?_ofList_eq_some_iff {k : κ} {v : α} {pairs : List (κ × α)} :
    (ofList pairs).get? k = some v ↔
      ∃ earlier later, pairs = earlier ++ (k, v) :: later ∧ k ∉ later.map Prod.fst := by
  constructor
  · intro h
    have hmem : k ∈ pairs.map Prod.fst := by
      by_contra hnot
      rw [get?_ofList_eq_none_iff.mpr hnot] at h
      cases h
    obtain ⟨earlier, v', later, rfl, hlater⟩ := exists_last_of_mem hmem
    rw [ofList, get?_insertAll_of_last empty v' earlier hlater, Option.some.injEq] at h
    exact ⟨earlier, later, h ▸ rfl, hlater⟩
  · rintro ⟨earlier, later, rfl, hlater⟩
    exact get?_insertAll_of_last empty v earlier hlater

end OrderedMap

namespace Keysets

/-! ### Histories -/

/-- A call that changes keysets. -/
inductive Edit where
  | add (keyset : String) (entries : List (String × Entry))
  | addComputed (keyset key : String) (format : Literal → String)
  | setLanguage (language : String)

/-- The keysets after an edit. -/
def edit (k : Keysets) : Edit → Keysets
  | .add keyset entries => k.add keyset entries
  | .addComputed keyset key format => k.addComputed keyset key format
  | .setLanguage language => k.setLanguage language

/-- What new keysets have become after some edits, the first one first. -/
def after (history : List Edit) : Keysets := history.foldl edit {}

namespace Edit

/-- The keyset that the edit is for. -/
def keyset? : Edit → Option String
  | .add keyset _ => some keyset
  | .addComputed keyset _ _ => some keyset
  | .setLanguage _ => none

/-- Whether the edit adds the keyset as a whole. -/
def adds (keyset : String) : Edit → Bool
  | .add name _ => name = keyset
  | _ => false

/-- What the edit writes to the keyset, the first pair first. -/
def writes (keyset : String) : Edit → List (String × Entry)
  | .add name entries => if name = keyset then entries else []
  | .addComputed name key format => if name = keyset then [(key, .computed format)] else []
  | .setLanguage _ => []

end Edit

/-- The edits from the last addition of the keyset on, or all of them if it was never added. -/
def sinceAdded (keyset : String) : List Edit → List Edit
  | [] => []
  | e :: rest => if rest.any (Edit.adds keyset) then sinceAdded keyset rest else e :: rest

/-- What was written to the keyset since its last addition. -/
def written (keyset : String) (history : List Edit) : List (String × Entry) :=
  (sinceAdded keyset history).flatMap (Edit.writes keyset)

theorem after_append (history : List Edit) (e : Edit) :
    after (history ++ [e]) = (after history).edit e :=
  List.foldl_append

theorem sinceAdded_append (keyset : String) (history : List Edit) (e : Edit) :
    sinceAdded keyset (history ++ [e]) =
      if e.adds keyset then [e] else sinceAdded keyset history ++ [e] := by
  induction history with
  | nil => exact (ite_self _).symm
  | cons d rest ih =>
    rw [List.cons_append, sinceAdded, sinceAdded, List.any_append, ih]
    cases hadds : e.adds keyset with
    | true => simp [hadds]
    | false =>
      simp only [List.any_cons, hadds, List.any_nil, Bool.or_false, Bool.false_eq_true, if_false]
      split <;> rfl

theorem written_append (keyset : String) (history : List Edit) (e : Edit) :
    written keyset (history ++ [e]) =
      if e.adds keyset then e.writes keyset else written keyset history ++ e.writes keyset := by
  unfold written
  rw [sinceAdded_append]
  split
  · rw [List.flatMap_singleton]
  · rw [List.flatMap_append, List.flatMap_singleton]

/-! ### One edit -/

/-- An edit that is not for a keyset writes nothing to it. -/
theorem Edit.idle {e : Edit} {keyset : String} (h : e.keyset? ≠ some keyset) :
    e.adds keyset = false ∧ e.writes keyset = [] := by
  cases e with
  | add name entries =>
    have hne : name ≠ keyset := fun heq => h (congrArg some heq)
    exact ⟨decide_eq_false hne, if_neg hne⟩
  | addComputed name key format =>
    have hne : name ≠ keyset := fun heq => h (congrArg some heq)
    exact ⟨rfl, if_neg hne⟩
  | setLanguage language => exact ⟨rfl, rfl⟩

/-- An edit that is for a keyset inserts its pairs into what the keyset holds, or into nothing if it
adds the keyset. Every other edit leaves the keyset alone. -/
theorem get?_sets_edit (k : Keysets) (e : Edit) (keyset : String) :
    (k.edit e).sets.get? keyset =
      if e.keyset? = some keyset then
        let old := if e.adds keyset then .empty else (k.sets.get? keyset).getD .empty
        some (old.insertAll (e.writes keyset))
      else k.sets.get? keyset := by
  cases e with
  | add name entries =>
    change (k.sets.insert name (.ofList entries)).get? keyset = _
    rw [OrderedMap.get?_insert]
    by_cases h : name = keyset
    · subst h
      simp [Edit.keyset?, Edit.adds, Edit.writes, OrderedMap.ofList]
    · simp [Edit.keyset?, h, Ne.symm h]
  | addComputed name key format =>
    change (k.sets.insert name (((k.sets.get? name).getD .empty).insert key _)).get? keyset = _
    rw [OrderedMap.get?_insert]
    by_cases h : name = keyset
    · subst h
      simp [Edit.keyset?, Edit.adds, Edit.writes, OrderedMap.insertAll]
    · simp [Edit.keyset?, h, Ne.symm h]
  | setLanguage language => rfl

/-! ### All edits -/

/-- A keyset is there if an edit was for it. -/
theorem isSome_sets_after (history : List Edit) (keyset : String) :
    ((after history).sets.get? keyset).isSome ↔ ∃ e ∈ history, e.keyset? = some keyset := by
  induction history using List.reverseRecOn with
  | nil => simp [after]
  | append_singleton history e ih =>
    rw [after_append, get?_sets_edit]
    by_cases h : e.keyset? = some keyset
    · rw [if_pos h]
      exact iff_of_true rfl ⟨e, List.mem_append_right _ (List.mem_singleton_self e), h⟩
    · rw [if_neg h, ih]
      simp [h, or_and_right, exists_or]

/-- A keyset holds what was written to it since its last addition, inserted pair by pair. -/
theorem getD_sets_after (history : List Edit) (keyset : String) :
    ((after history).sets.get? keyset).getD .empty = .ofList (written keyset history) := by
  induction history using List.reverseRecOn with
  | nil => rfl
  | append_singleton history e ih =>
    rw [after_append, get?_sets_edit, written_append, ih]
    by_cases h : e.keyset? = some keyset
    · rw [if_pos h, Option.getD_some]
      split
      · rfl
      · exact (OrderedMap.insertAll_append ..).symm
    · obtain ⟨hadds, hwrites⟩ := Edit.idle h
      rw [if_neg h, ih, hadds, hwrites, List.append_nil]
      rfl

/-- Edits that are not for a keyset might as well have been left out. -/
theorem get?_sets_after_filter (history : List Edit) (keyset : String) :
    (after (history.filter (·.keyset? = some keyset))).sets.get? keyset =
      (after history).sets.get? keyset := by
  induction history using List.reverseRecOn with
  | nil => rfl
  | append_singleton history e ih =>
    have hfilter : [e].filter (·.keyset? = some keyset) =
        if e.keyset? = some keyset then [e] else [] := by
      by_cases h : e.keyset? = some keyset <;> simp [h]
    rw [List.filter_append, hfilter, after_append, get?_sets_edit]
    split
    · rw [after_append, get?_sets_edit, ih, if_pos ‹_›]
    · rw [List.append_nil, ih]

/-! ### Lookups -/

theorem Entry.resolve_eq_iff {options : Literal} {entry : Entry} {answer : String} :
    entry.resolve options = answer ↔
      entry = .text answer ∨ ∃ format, entry = .computed format ∧ answer = format options := by
  cases entry with
  | text s => simp [resolve]
  | computed format => simp [resolve, eq_comm]

section

variable {k : Keysets} {keyset key : String} {options : Literal}

theorem lookupWith_eq_keyset_iff :
    k.lookupWith keyset key options = .error (.keyset keyset) ↔ k.sets.get? keyset = none := by
  unfold lookupWith
  rcases k.sets.get? keyset with _ | entries
  · simp
  · rcases hkey : entries.get? key <;> simp [hkey]

theorem lookupWith_eq_key_iff :
    k.lookupWith keyset key options = .error (.key keyset key) ↔
      (k.sets.get? keyset).isSome ∧ ((k.sets.get? keyset).getD .empty).get? key = none := by
  unfold lookupWith
  rcases k.sets.get? keyset with _ | entries
  · simp
  · rcases hkey : entries.get? key <;> simp [hkey]

theorem lookupWith_eq_ok_iff {answer : String} :
    k.lookupWith keyset key options = .ok answer ↔
      ∃ entry, ((k.sets.get? keyset).getD .empty).get? key = some entry ∧
        entry.resolve options = answer := by
  unfold lookupWith
  rcases k.sets.get? keyset with _ | entries
  · simp
  · rcases hkey : entries.get? key <;> simp [hkey]

end

/-- What lookups of a key give after a history. -/
structure LookupLaws (history : List Edit) (keyset key : String) (options : Literal) : Prop where
  /-- The keyset is missing exactly if no edit was for it. -/
  keysetMissing : (after history).lookupWith keyset key options = .error (.keyset keyset) ↔
    ∀ e ∈ history, e.keyset? ≠ some keyset
  /-- The key is missing exactly if there was such an edit, but the key was not written since the
  last addition of the keyset. -/
  keyMissing : (after history).lookupWith keyset key options = .error (.key keyset key) ↔
    (∃ e ∈ history, e.keyset? = some keyset) ∧ key ∉ (written keyset history).map Prod.fst
  /-- The answer is otherwise the value written last, a text as it stands, and a computed entry made
  from the options. -/
  found : ∀ answer, (after history).lookupWith keyset key options = .ok answer ↔
    ∃ earlier entry later, written keyset history = earlier ++ (key, entry) :: later ∧
      key ∉ later.map Prod.fst ∧
      (entry = .text answer ∨ ∃ format, entry = .computed format ∧ answer = format options)
  /-- A lookup without options is one with `null`. -/
  plain : (after history).lookup keyset key = (after history).lookupWith keyset key .null
  /-- Edits for other keysets and of the language change nothing about all this. -/
  others : (after (history.filter (·.keyset? = some keyset))).lookupWith keyset key options =
    (after history).lookupWith keyset key options

/-- Lookups are as promised after every history, for every keyset and key. -/
theorem lookup_after (history : List Edit) (keyset key : String) (options : Literal) :
    LookupLaws history keyset key options := by
  have hnamed := isSome_sets_after history keyset
  have hheld := getD_sets_after history keyset
  constructor
  · rw [lookupWith_eq_keyset_iff, ← Option.not_isSome_iff_eq_none, hnamed, not_exists]
    exact forall_congr' fun e => not_and
  · rw [lookupWith_eq_key_iff, hnamed, hheld, OrderedMap.get?_ofList_eq_none_iff]
  · intro answer
    simp only [lookupWith_eq_ok_iff, hheld, OrderedMap.get?_ofList_eq_some_iff,
      Entry.resolve_eq_iff]
    constructor
    · rintro ⟨entry, ⟨earlier, later, hwritten, hlater⟩, hanswer⟩
      exact ⟨earlier, entry, later, hwritten, hlater, hanswer⟩
    · rintro ⟨earlier, entry, later, hwritten, hlater, hanswer⟩
      exact ⟨entry, ⟨earlier, later, hwritten, hlater⟩, hanswer⟩
  · rfl
  · unfold lookupWith
    rw [get?_sets_after_filter]

/-- A computed entry joins the keyset of which a repeated key has its last value, and both are gone
with the next addition. -/
example :
    let history : List Edit := [.add "menu" [("open", .text "Open"), ("open", .text "Show")],
      .setLanguage "en", .addComputed "menu" "size" fun options =>
        match options with
        | .bool true => "large"
        | _ => "small"]
    let k := after history
    let k' := after (history ++ [.add "menu" [("close", .text "Close")]])
    (k.lookup "menu" "open", k.lookupWith "menu" "size" (.bool true), k.lookup "menu" "size") =
        (.ok "Show", .ok "large", .ok "small") ∧
      (k'.lookup "menu" "size", k'.lookup "menu" "close") =
        (.error (.key "menu" "size"), .ok "Close") := ⟨rfl, rfl⟩

end Keysets

end ComponentTree
