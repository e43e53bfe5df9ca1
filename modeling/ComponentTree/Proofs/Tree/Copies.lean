import ComponentTree.Proofs.Tree.Equality
import ComponentTree.Tree.Literal
import Mathlib.Data.List.Nodup
import Mathlib.Logic.Relation

/-!
Copies of trees and the identities of their records.

What a program does with its trees, as far as identities go, is a history: records are made, on
their own or from literal data, trees are cloned and snapshots taken, and what is in hand is taken
apart, written to, dropped, and put together again (`Stock.Step`). To speak of records that share an
identity, every record that was ever made has a number of its own, and the trees in hand hold these
numbers in the place of identities; which identity a record has, and of which record it is a
snapshot, is kept beside. That the trees with the identities put in are those of the program is
`visible_issue` and `visible_copy`. Main statement (`copies_and_identities`): a snapshot has the
identities of its tree, a clone has new ones, both are equal to the tree unless something in it is
not a number, and records share an identity exactly if they go back to one record by snapshots.
-/

namespace ComponentTree

/-- A clone does not depend on the identities of what is cloned. -/
theorem Node.reissue_mapKeys (f : Key → Key) (next : Key) (n : Node) :
    ((n.mapKeys f).reissue next).1 = (n.reissue next).1 := by
  obtain ⟨hsame, hkeys, -⟩ := n.reissue_spec next
  obtain ⟨hsame', hkeys', -⟩ := (n.mapKeys f).reissue_spec next
  refine Node.eq_of_anonymous ?_ ?_
  · rw [hsame, hsame', Node.anonymous_mapKeys]
  · rw [hkeys, hkeys', Node.keys_mapKeys, List.length_map]

/-! ### Histories -/

/-- What a program has in hand and what became of all its records. The trees hold the numbers of
their records. -/
structure Stock where
  trees : List Node
  /-- How many records were made, which is also the number of the next one. -/
  made : Nat
  /-- The identity of a record. -/
  identity : Nat → Key
  /-- The record that a snapshot was taken of, for the record in the snapshot. -/
  source : Nat → Option Nat
  /-- The next identity that is given. -/
  nextKey : Key

namespace Stock

variable {s s' : Stock} {n : Node}

/-- Nothing was made yet. The first identity is one. -/
def empty : Stock := ⟨[], 0, fun _ => 0, fun _ => none, 1⟩

/-- The trees in hand with the identities of their records. -/
def visible (s : Stock) : List Node := s.trees.map (Node.mapKeys s.identity)

/-- The node stands in a tree in hand. -/
def Holds (s : Stock) (n : Node) : Prop := ∃ t ∈ s.trees, n.Within t

/-- Makes further records in the shape of a tree: the `i`-th one has the identity `identity i` and
is a snapshot of `source i`. -/
def add (s : Stock) (n : Node) (identity : Nat → Key) (source : Nat → Option Nat) (nextKey : Key) :
    Stock where
  trees := (n.reissue s.made).1 :: s.trees
  made := s.made + n.keys.length
  identity i := if i < s.made then s.identity i else identity (i - s.made)
  source i := if i < s.made then s.source i else source (i - s.made)
  nextKey := nextKey

/-- Makes records in the shape of a tree with identities that were never given. -/
def issue (s : Stock) (n : Node) : Stock :=
  s.add n (s.nextKey + ·) (fun _ => none) (n.reissue s.nextKey).2

/-- Takes a snapshot of a tree in hand. -/
def copy (s : Stock) (n : Node) : Stock :=
  s.add n (fun i => s.identity (n.keys.getD i 0)) (n.keys[·]?) s.nextKey

/-- What a program can do with trees. -/
inductive Step : Stock → Stock → Prop
  /-- A new record, to which fields can be written afterwards. -/
  | build (s : Stock) : Step s (s.issue (.record .blank))
  /-- Literal data is made a tree. -/
  | convert (s : Stock) (v : Literal) : Step s (s.issue (.ofLiteral v))
  | clone (s : Stock) (n : Node) (h : s.Holds n) : Step s (s.issue n)
  | snapshot (s : Stock) (n : Node) (h : s.Holds n) : Step s (s.copy n)
  /-- Trees are taken apart, written to, dropped, and put together. No record comes up in two
  places, as moving is not copying. -/
  | arrange (s : Stock) (trees : List Node)
    (h : (Node.keysAll trees).Subperm (Node.keysAll s.trees)) : Step s { s with trees }

/-- The stock can come about. -/
def Reachable (s : Stock) : Prop := Relation.ReflTransGen Step empty s

/-- The record is a snapshot of the other one. -/
def SnapshotOf (s : Stock) (i j : Nat) : Prop := i < s.made ∧ s.source i = some j

/-! ### What the records are at any time -/

/-- What is known about the records of a stock that can come about. -/
structure Sound (s : Stock) : Prop where
  distinct : (Node.keysAll s.trees).Nodup
  known : ∀ i ∈ Node.keysAll s.trees, i < s.made
  issued : ∀ i < s.made, s.identity i < s.nextKey
  kept : ∀ i j, s.SnapshotOf i j → j < i ∧ s.identity i = s.identity j
  /-- No two records that are no snapshots share an identity. -/
  original : ∀ i < s.made, ∀ j < s.made, s.source i = none → s.source j = none →
    s.identity i = s.identity j → i = j

theorem sound_empty : empty.Sound where
  distinct := List.nodup_nil
  known _ h := absurd h List.not_mem_nil
  issued _ h := absurd h (Nat.not_lt_zero _)
  kept _ _ h := absurd h.1 (Nat.not_lt_zero _)
  original _ h := absurd h (Nat.not_lt_zero _)

theorem Holds.known (hs : s.Sound) (h : s.Holds n) : ∀ i ∈ n.keys, i < s.made := by
  obtain ⟨t, ht, hn⟩ := h
  exact fun i hi => hs.known i (Node.mem_keysAll.mpr ⟨t, ht, hn.keys_subset hi⟩)

section Add

variable {identity : Nat → Key} {source : Nat → Option Nat} {nextKey : Key} {i : Nat}

/-- A record is one of the old ones or one of those that were added. -/
theorem old_or_new (h : i < (s.add n identity source nextKey).made) :
    i < s.made ∨ ∃ k < n.keys.length, i = s.made + k := by
  have hi : i < s.made + n.keys.length := h
  by_cases hold : i < s.made
  · exact Or.inl hold
  · exact Or.inr ⟨i - s.made, by omega, by omega⟩

theorem identity_old (h : i < s.made) :
    (s.add n identity source nextKey).identity i = s.identity i := if_pos h

theorem source_old (h : i < s.made) :
    (s.add n identity source nextKey).source i = s.source i := if_pos h

@[simp] theorem identity_new (k : Nat) :
    (s.add n identity source nextKey).identity (s.made + k) = identity k :=
  (if_neg (by omega)).trans (congrArg identity (Nat.add_sub_cancel_left ..))

@[simp] theorem source_new (k : Nat) :
    (s.add n identity source nextKey).source (s.made + k) = source k :=
  (if_neg (by omega)).trans (congrArg source (Nat.add_sub_cancel_left ..))

/-- Records can be added if they are snapshots with the identities of their sources, or have
identities of their own that were never given. -/
theorem Sound.add (hs : s.Sound) (hnext : s.nextKey ≤ nextKey)
    (hissued : ∀ k < n.keys.length, identity k < nextKey)
    (hkept : ∀ k < n.keys.length, ∀ j, source k = some j → j < s.made ∧ identity k = s.identity j)
    (hnew : ∀ k < n.keys.length, source k = none → s.nextKey ≤ identity k)
    (hown : ∀ k < n.keys.length, ∀ l < n.keys.length, source k = none → source l = none →
      identity k = identity l → k = l) :
    (s.add n identity source nextKey).Sound := by
  obtain ⟨-, hkeys, -⟩ := n.reissue_spec s.made
  have hmem : ∀ i ∈ (n.reissue s.made).1.keys, s.made ≤ i ∧ i < s.made + n.keys.length := by
    intro i hi
    rw [hkeys] at hi
    exact List.mem_range'_1.mp hi
  constructor
  · show ((n.reissue s.made).1.keys ++ Node.keysAll s.trees).Nodup
    refine List.Nodup.append (hkeys ▸ List.nodup_range') hs.distinct fun i hi hold => ?_
    exact absurd (hs.known i hold) (Nat.not_lt_of_le (hmem i hi).1)
  · intro i hi
    rcases List.mem_append.mp hi with hi | hi
    · exact (hmem i hi).2
    · exact Nat.lt_add_right _ (hs.known i hi)
  · intro i hi
    rcases old_or_new hi with hold | ⟨k, hk, rfl⟩
    · rw [identity_old hold]
      exact Nat.lt_of_lt_of_le (hs.issued i hold) hnext
    · rw [identity_new]
      exact hissued k hk
  · rintro i j ⟨hi, hsource⟩
    rcases old_or_new hi with hold | ⟨k, hk, rfl⟩
    · rw [source_old hold] at hsource
      obtain ⟨hlt, hsame⟩ := hs.kept i j ⟨hold, hsource⟩
      rw [identity_old hold, identity_old (Nat.lt_trans hlt hold)]
      exact ⟨hlt, hsame⟩
    · rw [source_new] at hsource
      obtain ⟨hlt, hsame⟩ := hkept k hk j hsource
      rw [identity_new, identity_old hlt]
      exact ⟨Nat.lt_add_right k hlt, hsame⟩
  · intro i hi j hj hsi hsj hsame
    rcases old_or_new hi with hold | ⟨k, hk, rfl⟩ <;> rcases old_or_new hj with hold' | ⟨l, hl, rfl⟩
    · rw [source_old hold] at hsi
      rw [source_old hold'] at hsj
      rw [identity_old hold, identity_old hold'] at hsame
      exact hs.original i hold j hold' hsi hsj hsame
    -- an identity that was never given is not that of an old record
    · rw [source_new] at hsj
      rw [identity_old hold, identity_new] at hsame
      exact absurd (hs.issued i hold) (Nat.not_lt_of_le (hsame ▸ hnew l hl hsj))
    · rw [source_new] at hsi
      rw [identity_old hold', identity_new] at hsame
      exact absurd (hs.issued j hold') (Nat.not_lt_of_le (hsame ▸ hnew k hk hsi))
    · rw [source_new] at hsi hsj
      rw [identity_new, identity_new] at hsame
      rw [hown k hk l hl hsi hsj hsame]

/-- Of the trees in hand with their identities only the added one is new. -/
theorem visible_add (hs : s.Sound) {t : Node} (hsame : t.anonymous = n.anonymous)
    (hkeys : t.keys = (List.range n.keys.length).map identity) :
    (s.add n identity source nextKey).visible = t :: s.visible := by
  obtain ⟨hanonymous, hnumbers, -⟩ := n.reissue_spec s.made
  refine congrArg₂ List.cons (Node.eq_of_anonymous ?_ ?_) (List.map_congr_left fun t ht => ?_)
  · rw [Node.anonymous_mapKeys, hanonymous, hsame]
  · rw [Node.keys_mapKeys, hnumbers, hkeys, List.range'_eq_map_range, List.map_map]
    exact List.map_congr_left fun k _ => identity_new k
  · exact Node.mapKeys_congr fun i hi =>
      identity_old (hs.known i (Node.mem_keysAll.mpr ⟨t, ht, hi⟩))

end Add

/-! ### What the program does -/

theorem Sound.issue (hs : s.Sound) (n : Node) : (s.issue n).Sound := by
  have hnext : (n.reissue s.nextKey).2 = s.nextKey + n.keys.length := (n.reissue_spec s.nextKey).2.2
  rw [Stock.issue, hnext]
  exact hs.add (Nat.le_add_right ..) (fun _ hk => Nat.add_lt_add_left hk _)
    (fun _ _ _ h => nomatch h) (fun _ _ _ => Nat.le_add_right ..)
    fun _ _ _ _ _ _ h => Nat.add_left_cancel h

theorem Sound.copy (hs : s.Sound) (h : s.Holds n) : (s.copy n).Sound := by
  have hsource : ∀ k < n.keys.length, ∃ j ∈ n.keys, n.keys[k]? = some j ∧ n.keys.getD k 0 = j := by
    intro k hk
    refine ⟨n.keys[k], List.getElem_mem hk, List.getElem?_eq_getElem hk, ?_⟩
    rw [List.getD_eq_getElem?_getD, List.getElem?_eq_getElem hk, Option.getD_some]
  refine hs.add (Nat.le_refl _) (fun k hk => ?_) (fun k hk j hj => ?_) (fun k hk hnone => ?_)
    fun k hk _ _ hnone => ?_
  · obtain ⟨j, hj, -, hget⟩ := hsource k hk
    rw [hget]
    exact hs.issued j (h.known hs j hj)
  · obtain ⟨j', hj', hsome, hget⟩ := hsource k hk
    obtain rfl : j' = j := Option.some.inj (hsome.symm.trans hj)
    exact ⟨h.known hs j' hj', congrArg s.identity hget⟩
  all_goals
    obtain ⟨j, -, hsome, -⟩ := hsource k hk
    exact absurd (hsome.symm.trans hnone) (Option.some_ne_none j)

/-- Records that are made, from literal data or as a clone, are the program's. -/
theorem visible_issue (hs : s.Sound) (n : Node) :
    (s.issue n).visible = ((n.mapKeys s.identity).reissue s.nextKey).1 :: s.visible := by
  obtain ⟨hsame, hkeys, -⟩ := (n.mapKeys s.identity).reissue_spec s.nextKey
  refine visible_add hs (by rw [hsame, Node.anonymous_mapKeys]) ?_
  rw [hkeys, Node.keys_mapKeys, List.length_map, List.range'_eq_map_range]

/-- A snapshot is the program's. -/
theorem visible_copy (hs : s.Sound) (n : Node) :
    (s.copy n).visible = (n.mapKeys s.identity).snapshot :: s.visible := by
  refine visible_add hs ?_ ?_
  · rw [Node.snapshot_eq, Node.anonymous_mapKeys]
  · rw [Node.snapshot_eq, Node.keys_mapKeys]
    refine List.ext_getElem (by simp) fun k hk _ => ?_
    have hk' : k < n.keys.length := by simpa using hk
    simp [hk']

theorem Sound.step (hs : s.Sound) (h : Step s s') : s'.Sound := by
  cases h with
  | build => exact hs.issue _
  | convert v => exact hs.issue _
  | clone n h => exact hs.issue n
  | snapshot n h => exact hs.copy h
  | arrange trees h =>
    obtain ⟨keys, hperm, hsub⟩ := h
    exact ⟨hperm.nodup_iff.mp (hsub.nodup hs.distinct),
      fun i hi => hs.known i (hsub.subset (hperm.mem_iff.mpr hi)), hs.issued, hs.kept, hs.original⟩

theorem Reachable.sound (h : s.Reachable) : s.Sound := by
  induction h with
  | refl => exact sound_empty
  | tail _ hstep ih => exact ih.step hstep

/-! ### Records that share an identity -/

/-- Every record goes back by snapshots to one that is none, and has its identity. -/
theorem Sound.exists_original (hs : s.Sound) {i : Nat} (hi : i < s.made) :
    ∃ j < s.made, s.source j = none ∧ Relation.ReflTransGen s.SnapshotOf i j ∧
      s.identity i = s.identity j := by
  induction i using Nat.strongRecOn with
  | ind i ih =>
    cases hsource : s.source i with
    | none => exact ⟨i, hi, hsource, .refl, rfl⟩
    | some k =>
      obtain ⟨hlt, hsame⟩ := hs.kept i k ⟨hi, hsource⟩
      obtain ⟨j, hj, hnone, hback, hsame'⟩ := ih k hlt (Nat.lt_trans hlt hi)
      exact ⟨j, hj, hnone, .head ⟨hi, hsource⟩ hback, hsame.trans hsame'⟩

theorem Sound.identity_of_back (hs : s.Sound) {i j : Nat}
    (h : Relation.ReflTransGen s.SnapshotOf i j) : s.identity i = s.identity j := by
  induction h with
  | refl => rfl
  | tail _ hstep ih => exact ih.trans (hs.kept _ _ hstep).2

/-- Records share an identity exactly if they go back to one record by snapshots. -/
theorem Sound.identity_eq_iff (hs : s.Sound) {i j : Nat} (hi : i < s.made) (hj : j < s.made) :
    s.identity i = s.identity j ↔ Relation.Join (Relation.ReflTransGen s.SnapshotOf) i j := by
  constructor
  · intro hsame
    obtain ⟨k, hk, hnone, hback, hik⟩ := hs.exists_original hi
    obtain ⟨l, hl, hnone', hback', hjl⟩ := hs.exists_original hj
    obtain rfl := hs.original k hk l hl hnone hnone' (hik.symm.trans (hsame.trans hjl))
    exact ⟨k, hback, hback'⟩
  · rintro ⟨k, hback, hback'⟩
    rw [hs.identity_of_back hback, hs.identity_of_back hback']

end Stock

/-! ### Copies -/

/-- What copies of a tree are, at any time of a history. -/
structure CopyLaws (n : Node) (s : Stock) : Prop where
  /-- A snapshot has the same records at the same places, each with its identity. -/
  snapshot : n.snapshot.anonymous = n.anonymous ∧ n.snapshot.keys = n.keys
  /-- A clone has the same records but for their identities, which are all different. -/
  clone : (n.reissue s.nextKey).1.anonymous = n.anonymous ∧ (n.reissue s.nextKey).1.keys.Nodup
  /-- No identity of a clone was given before. -/
  unused : ∀ key ∈ (n.reissue s.nextKey).1.keys, ∀ i < s.made, s.identity i ≠ key
  /-- Tree and copy are equal, from either side, unless something in the tree is not a number. -/
  equal : ∀ copy ∈ [n.snapshot, (n.reissue s.nextKey).1],
    (n.same copy = true ↔ ¬n.HasNaN) ∧ (copy.same n = true ↔ ¬n.HasNaN)
  /-- The trees in hand consist of different records, whose identities show in them. -/
  records : (Node.keysAll s.trees).Nodup ∧ (∀ i ∈ Node.keysAll s.trees, i < s.made) ∧
    Node.keysAll s.visible = (Node.keysAll s.trees).map s.identity
  /-- In the history, trees are made of literal data, cloned, and taken snapshots of as in the
  program. -/
  history : (∀ v, (s.issue (.ofLiteral v)).visible =
      ((Node.ofLiteral v).reissue s.nextKey).1 :: s.visible) ∧
    ∀ held, s.Holds held →
      (s.issue held).visible = ((held.mapKeys s.identity).reissue s.nextKey).1 :: s.visible ∧
      (s.copy held).visible = (held.mapKeys s.identity).snapshot :: s.visible
  /-- Two records ever made share an identity exactly if one is a snapshot of the other, directly or
  through further ones, or both are such snapshots of one record. -/
  shared : ∀ i < s.made, ∀ j < s.made, s.identity i = s.identity j ↔
    Relation.Join (Relation.ReflTransGen s.SnapshotOf) i j

/-- Copies and identities are as promised: for every tree and whatever was built, made of literal
data, cloned, taken snapshots of and rearranged before. -/
theorem copies_and_identities {n : Node} (hdata : n.DataDistinct) {s : Stock} (hs : s.Reachable) :
    CopyLaws n s := by
  have hsound := hs.sound
  obtain ⟨hsame, hkeys, -⟩ := n.reissue_spec s.nextKey
  have hsnapshot : n.snapshot.anonymous = n.anonymous := by rw [n.snapshot_eq]
  constructor
  · exact ⟨hsnapshot, by rw [n.snapshot_eq]⟩
  · exact ⟨hsame, hkeys ▸ List.nodup_range'⟩
  · rintro key hkey i hi rfl
    rw [hkeys, List.mem_range'_1] at hkey
    exact absurd (hsound.issued i hi) (Nat.not_lt_of_le hkey.1)
  · intro copy hcopy
    rcases List.mem_pair.mp hcopy with rfl | rfl
    · exact Node.same_copy_iff hdata hsnapshot
    · exact Node.same_copy_iff hdata hsame
  · refine ⟨hsound.distinct, hsound.known, ?_⟩
    rw [Stock.visible, ← Node.mapKeysAll_eq_map, Node.keysAll_mapKeysAll]
  · exact ⟨fun v => (Stock.visible_issue hsound _).trans (by rw [Node.reissue_mapKeys]),
      fun held _ => ⟨Stock.visible_issue hsound held, Stock.visible_copy hsound held⟩⟩
  · exact fun i hi j hj => hsound.identity_eq_iff hi hj

/-- A card with a parameter and an option that are objects, with a text and a mixin. -/
def Node.optionedCard : Node := .record
  { Record.blank with
    component := some "card"
    params := .ofList [("size", .object [("width", .null)])]
    content := .list [.text "Wide", .bool true]
    mixins := [.number (.infinity false)]
    rendering := { initOptions := some (.ofList [("label", .object [("short", .null)])]) } }

/-- The card is copied after a record was built and a snapshot of it was taken. -/
theorem copies_of_optionedCard :
    let s := (Stock.empty.issue (.record .blank)).copy (.record .blank)
    Node.optionedCard.DataDistinct ∧ ¬Node.optionedCard.HasNaN ∧ s.Reachable ∧
      CopyLaws .optionedCard s := by
  intro s
  have hdata : Node.optionedCard.DataDistinct := by
    refine Node.dataDistinct_record.mpr ⟨⟨by decide, ?_⟩, Node.dataDistinct_list.mpr ?_, ?_⟩
    · rintro _ ⟨⟩
      decide
    · intro x hx
      rcases List.mem_pair.mp hx with rfl | rfl <;> exact Node.dataDistinct_of_not_isInner rfl
    · intro x hx
      obtain rfl := List.mem_singleton.mp hx
      exact Node.dataDistinct_of_not_isInner rfl
  have hnan : ¬Node.optionedCard.HasNaN := by
    simp [Node.optionedCard, Node.HasNaN, Node.within_record, Node.within_list, Node.within_text,
      Node.within_bool, Node.within_number]
  have hs : s.Reachable :=
    .tail (.single (.build _)) (.snapshot _ _ ⟨.record .blank, List.mem_singleton_self _, .self⟩)
  exact ⟨hdata, hnan, hs, copies_and_identities hdata hs⟩

end ComponentTree
