import ComponentTree.Proofs.Expansion.Moves

/-!
The identifiers that an engine gives out while it lives.

An identifier is the prefix of the options followed by the engine's counter, and nothing takes the
counter back: neither an expansion that fails nor new options. So the numbers of all identifiers
that are ever given out are different (`given_numbered`). Two identifiers are then the same just
where the longer one of two prefixes ends in digits that the other number begins with
(`append_number_eq_iff`). Main statement (`given_distinct`): as long as the counter does not come
round, this is how identifiers can be the same, and there are no two such if no prefix in use is
another one followed by digits.
-/

namespace ComponentTree

variable {σ : Type}

/-- The identifier that was given out. -/
def Event.identifier? : Event → Option String
  | .identified id => some id
  | _ => none

/-- The identifiers that were given out, the first one first. -/
def Ledger.identifiers (l : Ledger) : List String := l.journal.reverse.filterMap Event.identifier?

/-! ### Uses of an engine -/

/-- Something that is done with an engine. -/
inductive Engine.Use (σ : Type) where
  | expand (fuel : Nat) (nextKey : Key) (memory : σ) (root : Node)
  | setOptions (options : Options)
  | setGuard (on : Bool)
  | setLibrary (library : Library)
  | register (selectors : List Selector) (body : RuleM σ (Option Node))
  | setDefaultVariant (component variant : String)

namespace Engine

/-- The engine afterwards. -/
def use (e : Engine σ) : Use σ → Engine σ
  | .expand fuel nextKey memory root => (e.expand fuel nextKey memory root).engine
  | .setOptions options => e.setOptions options
  | .setGuard on => e.setGuard on
  | .setLibrary library => e.setLibrary library
  | .register selectors body => (e.register selectors body).1
  | .setDefaultVariant component variant => e.setDefaultVariant component variant

/-- The identifiers that rules are given by it, whether or not an expansion has an answer. -/
def identifiersOf (e : Engine σ) : Use σ → List String
  | .expand fuel nextKey memory root => (e.expand fuel nextKey memory root).ledger.identifiers
  | _ => []

/-- The identifiers that are given out in the course of some uses, each with the prefix that was in
force. -/
def given (e : Engine σ) : List (Use σ) → List (String × String)
  | [] => []
  | u :: rest => (e.identifiersOf u).map (e.options.idPrefix, ·) ++ (e.use u).given rest

/-! ### Numbers -/

/-- Each identifier is its prefix followed by a number, and the numbers count up from `n`. -/
def Numbered (n : UInt64) (given : List (String × String)) : Prop :=
  ∀ k (hk : k < given.length), given[k].2 = given[k].1 ++ toString (n + UInt64.ofNat k).toNat

theorem numbered_append {n : UInt64} {l l' : List (String × String)} (h : Numbered n l)
    (h' : Numbered (n + UInt64.ofNat l.length) l') : Numbered n (l ++ l') := by
  intro k hk
  rw [List.getElem_append]
  split
  · exact h k _
  · rename_i hlt
    rw [List.length_append] at hk
    have hk' := h' (k - l.length) (by omega)
    rwa [UInt64.add_assoc, ← UInt64.ofNat_add, Nat.add_sub_cancel' (Nat.not_lt.mp hlt)] at hk'

end Engine

/-- The identifiers in the ledger are numbered from `n` on, and the counter stands behind them. -/
structure World.Tallied (idPrefix : String) (n : UInt64) (w : World σ) : Prop where
  numbered : Engine.Numbered n (w.ledger.identifiers.map (idPrefix, ·))
  counter : w.nextId = n + UInt64.ofNat w.ledger.identifiers.length

theorem World.Move.tallied {e : Engine σ} {n : UInt64} {w w' : World σ} (h : Move e w w')
    (hw : w.Tallied e.options.idPrefix n) : w'.Tallied e.options.idPrefix n := by
  -- no other move gives out an identifier
  have other : w'.ledger.identifiers = w.ledger.identifiers → w'.nextId = w.nextId →
      w'.Tallied e.options.idPrefix n := by
    intro hids hnext
    exact ⟨hids ▸ hw.numbered, by rw [hids, hnext, hw.counter]⟩
  have logged : ∀ {u : World σ} {event : Event}, event.identifier? = none →
      (u.log event).ledger.identifiers = u.ledger.identifiers := by
    intro u event he
    simp [Ledger.identifiers, he]
  cases h with
  | identify =>
    have hids : ∀ (u : World σ) (id : String),
        (u.log (.identified id)).ledger.identifiers = u.ledger.identifiers ++ [id] := by
      intro u id
      simp [Ledger.identifiers, Event.identifier?]
    constructor
    · rw [hids, List.map_append]
      refine Engine.numbered_append hw.numbered fun k hk => ?_
      obtain rfl : k = 0 := Nat.lt_one_iff.mp hk
      rw [List.length_map, ← hw.counter]
      simp
    · rw [hids, List.length_append, UInt64.ofNat_add, ← UInt64.add_assoc, ← hw.counter]
      rfl
  | visit | replace | start => exact other (logged rfl) rfl
  | skip | issue | beginPass | remember => exact other rfl rfl

namespace Engine

/-- What one use gives out is numbered from the counter on, and the counter moves behind it. -/
theorem use_tallied (e : Engine σ) (u : Use σ) :
    Numbered e.nextId ((e.identifiersOf u).map (e.options.idPrefix, ·)) ∧
      (e.use u).nextId = e.nextId + UInt64.ofNat (e.identifiersOf u).length := by
  cases u with
  | expand fuel nextKey memory root =>
    have hstart : World.Tallied e.options.idPrefix e.nextId
        ({ nextKey, nextId := e.nextId, memory } : World σ) :=
      ⟨fun k hk => absurd hk (Nat.not_lt_zero k), (UInt64.add_zero _).symm⟩
    have hend := (e.admits_moves.expandIn fuel root _).keeps (fun _ _ hm => hm.tallied) hstart
    exact ⟨hend.numbered, hend.counter⟩
  | setOptions | setGuard | setLibrary | register | setDefaultVariant =>
    exact ⟨fun k hk => absurd hk (Nat.not_lt_zero k), (UInt64.add_zero _).symm⟩

/-- Whatever is done with an engine, what is given out is numbered from the counter on. -/
theorem given_numbered : ∀ (uses : List (Use σ)) (e : Engine σ), Numbered e.nextId (e.given uses)
  | [], _ => fun k hk => absurd hk (Nat.not_lt_zero k)
  | u :: rest, e => by
    obtain ⟨hnumbered, hcounter⟩ := e.use_tallied u
    have ih := given_numbered rest (e.use u)
    rw [hcounter] at ih
    refine numbered_append hnumbered ?_
    rwa [List.length_map]

end Engine

/-! ### Prefixes and numbers -/

/-- The prefix `q` is `p` and some digits which the number `m` begins with, and `n` is the rest of
this number. -/
def RunsInto (p : String) (m : Nat) (q : String) (n : Nat) : Prop :=
  ∃ digits : String, digits ≠ "" ∧ q = p ++ digits ∧ toString m = digits ++ toString n

theorem RunsInto.append_eq {p q : String} {m n : Nat} (h : RunsInto p m q n) :
    p ++ toString m = q ++ toString n := by
  obtain ⟨digits, -, rfl, hm⟩ := h
  rw [hm, String.append_assoc]

/-- What the first prefix is followed by in the other one are digits. -/
theorem RunsInto.exists_digits {p q : String} {m n : Nat} (h : RunsInto p m q n) :
    ∃ digits : String, digits ≠ "" ∧ q = p ++ digits ∧ ∀ c ∈ digits.toList, c.isDigit := by
  obtain ⟨digits, hne, hq, hm⟩ := h
  refine ⟨digits, hne, hq, fun c hc => ?_⟩
  have hmem : c ∈ (toString m).toList := by
    rw [hm, String.toList_append]
    exact List.mem_append_left _ hc
  rw [Nat.toString_eq_repr, Nat.toList_repr] at hmem
  exact Nat.isDigit_of_mem_toDigits (by decide) (by decide) hmem

theorem eq_of_toString_eq {m n : Nat} (h : toString m = toString n) : m = n := by
  rw [Nat.toString_eq_repr, Nat.toString_eq_repr, ← String.toList_inj, Nat.toList_repr,
    Nat.toList_repr] at h
  rw [← Nat.ofDigitChars_ten_toDigits (n := m), h, Nat.ofDigitChars_ten_toDigits]

theorem runsInto_of_toList {p q : String} {m n : Nat} {digits : List Char} (hne : m ≠ n)
    (hq : q.toList = p.toList ++ digits)
    (hm : (toString m).toList = digits ++ (toString n).toList) : RunsInto p m q n := by
  refine ⟨String.ofList digits, fun hnil => ?_, ?_, ?_⟩
  · rw [← String.toList_eq_nil_iff, String.toList_ofList] at hnil
    rw [hnil, List.nil_append, String.toList_inj] at hm
    exact hne (eq_of_toString_eq hm)
  · rw [← String.toList_inj, String.toList_append, String.toList_ofList, hq]
  · rw [← String.toList_inj, String.toList_append, String.toList_ofList, hm]

/-- Behind two prefixes, different numbers make the same text only where one prefix runs into the
other. -/
theorem append_number_eq_iff {p q : String} {m n : Nat} (hne : m ≠ n) :
    p ++ toString m = q ++ toString n ↔ RunsInto p m q n ∨ RunsInto q n p m := by
  constructor
  · intro h
    rw [← String.toList_inj, String.toList_append, String.toList_append,
      List.append_eq_append_iff] at h
    rcases h with ⟨digits, hq, hm⟩ | ⟨digits, hp, hn⟩
    · exact Or.inl (runsInto_of_toList hne hq hm)
    · exact Or.inr (runsInto_of_toList hne.symm hp hn)
  · rintro (h | h)
    · exact h.append_eq
    · exact h.append_eq.symm

/-! ### Distinct identifiers -/

/-- The counter comes to every number once before it comes round. -/
theorem toNat_add_ofNat_ne (n : UInt64) {i j : Nat} (hi : i < UInt64.size) (hj : j < UInt64.size)
    (hne : i ≠ j) : (n + UInt64.ofNat i).toNat ≠ (n + UInt64.ofNat j).toNat := by
  rw [UInt64.toNat_add, UInt64.toNat_add, UInt64.toNat_ofNat', UInt64.toNat_ofNat']
  rw [UInt64.size] at hi hj
  have := n.toNat_lt
  omega

namespace Engine

/-- Whatever is done with an engine, and whether its expansions have answers or fail: each
identifier is the prefix in force and the next number of the counter. If there are not more of them
than the counter has numbers, two are the same only where the prefix of one runs into the prefix of
the other. There are no such two if no prefix that was used is another one followed by digits. -/
theorem given_distinct (e : Engine σ) (uses : List (Use σ))
    (hcount : (e.given uses).length ≤ UInt64.size) :
    Numbered e.nextId (e.given uses) ∧
    (∀ i j (hi : i < (e.given uses).length) (hj : j < (e.given uses).length), i ≠ j →
      ((e.given uses)[i].2 = (e.given uses)[j].2 ↔
        RunsInto (e.given uses)[i].1 (e.nextId + UInt64.ofNat i).toNat
          (e.given uses)[j].1 (e.nextId + UInt64.ofNat j).toNat ∨
        RunsInto (e.given uses)[j].1 (e.nextId + UInt64.ofNat j).toNat
          (e.given uses)[i].1 (e.nextId + UInt64.ofNat i).toNat)) ∧
    ((∀ p ∈ (e.given uses).map Prod.fst, ∀ digits : String, (∀ c ∈ digits.toList, c.isDigit) →
      p ++ digits ∈ (e.given uses).map Prod.fst → digits = "") →
        ((e.given uses).map Prod.snd).Nodup) := by
  have hnumbered := given_numbered uses e
  generalize e.given uses = given at hcount hnumbered ⊢
  have hsame : ∀ i j (hi : i < given.length) (hj : j < given.length), i ≠ j →
      (given[i].2 = given[j].2 ↔
        RunsInto given[i].1 (e.nextId + UInt64.ofNat i).toNat
          given[j].1 (e.nextId + UInt64.ofNat j).toNat ∨
        RunsInto given[j].1 (e.nextId + UInt64.ofNat j).toNat
          given[i].1 (e.nextId + UInt64.ofNat i).toNat) := by
    intro i j hi hj hne
    rw [hnumbered i hi, hnumbered j hj]
    exact append_number_eq_iff
      (toNat_add_ofNat_ne _ (Nat.lt_of_lt_of_le hi hcount) (Nat.lt_of_lt_of_le hj hcount) hne)
  refine ⟨hnumbered, hsame, fun hprefixes => ?_⟩
  have hclash : ∀ {i j m n} (hi : i < given.length) (hj : j < given.length),
      ¬ RunsInto given[i].1 m given[j].1 n := by
    intro i j m n hi hj h
    obtain ⟨digits, hne, hq, hdigits⟩ := h.exists_digits
    refine hne (hprefixes _ (List.mem_map_of_mem (List.getElem_mem hi)) digits hdigits ?_)
    rw [← hq]
    exact List.mem_map_of_mem (List.getElem_mem hj)
  rw [List.Nodup, List.pairwise_iff_getElem]
  intro i j hi hj hlt
  rw [List.length_map] at hi hj
  rw [List.getElem_map, List.getElem_map, ne_eq, hsame i j hi hj (Nat.ne_of_lt hlt), not_or]
  exact ⟨hclash hi hj, hclash hj hi⟩

/-- An engine with a rule that gives every item an identifier. -/
def labelling (idPrefix : String) : Engine Unit :=
  ((ofOptions { idPrefix }).register [⟨"item", .none, none⟩]
    (.generateId fun id => .write (.attr "id" (.text id)) (.done none))).1

/-- Some items, with identities from one on. -/
def items (count : Nat) : Node :=
  .list ((List.range count).map fun i =>
    .record { Record.blank with key := i + 1, component := some "item" })

/-- A dash is no digit, so the prefix may get one. -/
theorem given_distinct_dashed :
    let uses : List (Use Unit) :=
      [.expand 9 3 () (items 2), .setOptions { idPrefix := "a-" }, .expand 9 2 () (items 1)]
    ((labelling "a").given uses).length ≤ UInt64.size ∧
      (labelling "a").given uses = [("a", "a0"), ("a", "a1"), ("a-", "a-2")] ∧
      (((labelling "a").given uses).map Prod.snd).Nodup := by
  intro uses
  have hgiven : (labelling "a").given uses = [("a", "a0"), ("a", "a1"), ("a-", "a-2")] := by
    decide +kernel
  have hcount : ((labelling "a").given uses).length ≤ UInt64.size :=
    Nat.le_trans (Nat.le_of_eq (congrArg List.length hgiven)) (by decide)
  refine ⟨hcount, hgiven, (given_distinct (labelling "a") uses hcount).2.2 ?_⟩
  rw [hgiven]
  intro p _ digits hdigits hq
  have hfree : ∀ q ∈ ["a", "a", "a-"], ∀ c ∈ q.toList, ¬ c.isDigit := by simp
  cases hcs : digits.toList with
  | nil => exact String.toList_eq_nil_iff.mp hcs
  | cons c cs =>
    have hc : c ∈ digits.toList := hcs ▸ List.mem_cons_self ..
    have hmem : c ∈ (p ++ digits).toList := by
      rw [String.toList_append]
      exact List.mem_append_right _ hc
    exact absurd (hdigits c hc) (hfree _ hq c hmem)

/-- The first prefix ends in a digit, and the second one is the same without it: behind the first
one the number 0 makes the text that the number 10 makes behind the second one. -/
theorem given_distinct_shortened : ¬ ∀ (e : Engine Unit) (uses : List (Use Unit)),
    (e.given uses).length < UInt64.size → ((e.given uses).map Prod.snd).Nodup := by
  intro h
  have hgiven := h (labelling "a1")
    [.expand 9 2 () (items 1), .setOptions { idPrefix := "a" }, .expand 20 11 () (items 10)]
  revert hgiven
  decide +kernel

end Engine

end ComponentTree
