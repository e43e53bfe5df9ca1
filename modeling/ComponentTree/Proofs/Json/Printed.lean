import ComponentTree.Json.Printer
import ComponentTree.Proofs.Json.Tokens

/-!
Printed values are read back.

The reader is asked to keep what it finds: each number as its text, and the members of an object as
they stand, repeated names included (`Json.verbatim`). Strings are read back character by character.
A value is read back whatever follows it, as long as that does not go on with a number; the fuel of
the reader is enough since every value, item and member takes up at least one character. Main
statement (`Json.read_print`): the text of a value is read as this value, with its numbers as their
texts.
-/

namespace ComponentTree.Json

/-! ### What is read -/

mutual

/-- The value with `f` applied to its numbers. -/
def map {ν μ : Type} (f : ν → μ) : Json ν → Json μ
  | .null => .null
  | .bool b => .bool b
  | .number n => .number (f n)
  | .string s => .string s
  | .array items => .array (mapItems f items)
  | .object members => .object (mapMembers f members)

/-- The values with `f` applied to their numbers. -/
def mapItems {ν μ : Type} (f : ν → μ) : List (Json ν) → List (Json μ)
  | [] => []
  | x :: xs => map f x :: mapItems f xs

/-- The members with `f` applied to the numbers of their values. -/
def mapMembers {ν μ : Type} (f : ν → μ) : List (String × Json ν) → List (String × Json μ)
  | [] => []
  | (name, x) :: xs => (name, map f x) :: mapMembers f xs

end

theorem mapItems_eq {ν μ : Type} (f : ν → μ) (items : List (Json ν)) :
    mapItems f items = items.map (map f) := by
  induction items with
  | nil => rfl
  | cons x xs ih => rw [mapItems, ih, List.map_cons]

theorem mapMembers_eq {ν μ : Type} (f : ν → μ) (members : List (String × Json ν)) :
    mapMembers f members = members.map fun m => (m.1, m.2.map f) := by
  induction members with
  | nil => rfl
  | cons m ms ih => rw [mapMembers, ih, List.map_cons]

/-- Reads a text as it stands: any depth, each number as its text, and all members in order. -/
def verbatim : Policy String where
  maxDepth := none
  pairedSurrogates := true
  numberCutOff := .truncated
  number t := some (String.ofList t.text)
  object := .object

@[simp] theorem verbatim_object (members : List (String × Json String)) :
    verbatim.object members = .object members := rfl

/-! ### Strings -/

theorem hexValue_hexDigit : ∀ n < 16, hexValue (hexDigit n) = some n := by decide

/-- The escape of a control character is read as this character. -/
theorem hexValue4_control {n : Nat} (hn : n < 32) :
    hexValue4 '0' '0' (hexDigit (n / 16)) (hexDigit (n % 16)) = some n := by
  have hzero : hexValue '0' = some 0 := hexValue_hexDigit 0 (by decide)
  simp [hexValue4, hzero, hexValue_hexDigit (n / 16) (by omega),
    hexValue_hexDigit (n % 16) (by omega)]
  omega

section Strings

variable {paired : Bool}

theorem readString_close (cs : List Char) : readString paired ('"' :: cs) = .ok ([], cs) := by
  rw [readString.eq_def]
  simp

theorem readString_plain {c : Char} (hquote : c ≠ '"') (hcontrol : ¬c.toNat < 32)
    (hslash : c ≠ '\\') (cs : List Char) :
    readString paired (c :: cs) = prepend c (readString paired cs) := by
  rw [readString.eq_def]
  simp [hquote, hcontrol, hslash]

theorem readString_simple {e c : Char} (h : simpleEscape e = some c) (cs : List Char) :
    readString paired ('\\' :: e :: cs) = prepend c (readString paired cs) := by
  have he : e ≠ 'u' := by
    rintro rfl
    have hnone : simpleEscape 'u' = none := by decide
    rw [hnone] at h
    exact absurd h (by simp)
  rw [readString.eq_def]
  simp [he, h]

theorem readString_unicode {h₁ h₂ h₃ h₄ : Char} {n : Nat} (h : hexValue4 h₁ h₂ h₃ h₄ = some n)
    (hlead : isLeadingSurrogate n = false) (htrail : isTrailingSurrogate n = false)
    (cs : List Char) : readString paired ('\\' :: 'u' :: h₁ :: h₂ :: h₃ :: h₄ :: cs) =
      prepend (Char.ofNat n) (readString paired cs) := by
  rw [readString.eq_def]
  simp [h, hlead, htrail]

/-- What is written for a character is read as this character. -/
theorem readString_escapedChar (c : Char) (cs : List Char) :
    readString paired (escapedChar c ++ cs) = prepend c (readString paired cs) := by
  have hcode : ∀ n : Nat, c.toNat = n → c = Char.ofNat n := fun n h => by rw [← h, Char.ofNat_toNat]
  unfold escapedChar
  split
  · subst_vars; exact readString_simple (by decide) cs
  split
  · subst_vars; exact readString_simple (by decide) cs
  split
  · rename_i h; rw [hcode 8 h]; exact readString_simple (by decide) cs
  split
  · rename_i h; rw [hcode 12 h]; exact readString_simple (by decide) cs
  split
  · subst_vars; exact readString_simple (by decide) cs
  split
  · subst_vars; exact readString_simple (by decide) cs
  split
  · subst_vars; exact readString_simple (by decide) cs
  split
  · rename_i h
    have hlead : isLeadingSurrogate c.toNat = false := by simp [isLeadingSurrogate]; omega
    have htrail : isTrailingSurrogate c.toNat = false := by simp [isTrailingSurrogate]; omega
    refine (readString_unicode (hexValue4_control h) hlead htrail cs).trans ?_
    rw [Char.ofNat_toNat]
  · rename_i hquote hslash _ _ _ _ _ hcontrol
    exact readString_plain hquote hcontrol hslash cs

/-- A string is read up to its closing quote. -/
theorem readString_escaped (s rest : List Char) :
    readString paired (s.flatMap escapedChar ++ '"' :: rest) = .ok (s, rest) := by
  induction s with
  | nil => exact readString_close rest
  | cons c s ih =>
    rw [List.flatMap_cons, List.append_assoc, readString_escapedChar, ih]
    rfl

end Strings

/-! ### Values -/

/-- The text of a value starts as a value does. -/
def Opens (cs : List Char) : Prop := ∃ c rest, cs = c :: rest ∧ (opening? c).isSome = true

theorem opening?_number {c : Char} (h : c = '-' ∨ c.isDigit = true) :
    opening? c = some .number := by
  have hne : ∀ d ∈ ['n', 't', 'f', '"', '[', '{'], c ≠ d := by
    rintro d hd rfl
    simp only [List.mem_cons, List.not_mem_nil, or_false] at hd
    rcases hd with rfl | rfl | rfl | rfl | rfl | rfl <;> exact absurd h (by decide)
  simp only [List.forall_mem_cons] at hne
  simp [opening?, hne, h]

theorem not_blank_of_opening {c : Char} (h : (opening? c).isSome = true) :
    isBlank c = false ∧ c ≠ ']' := by
  refine ⟨Bool.eq_false_iff.mpr fun hblank => ?_, ?_⟩
  · simp only [isBlank, Bool.or_eq_true, decide_eq_true_eq] at hblank
    rcases hblank with ((rfl | rfl) | rfl) | rfl <;> exact absurd h (by decide)
  · rintro rfl
    exact absurd h (by decide)

/-- The text of a number of literal data. -/
def numberChars (n : Number) : List Char := n.text.toList

theorem opens_chars (v : Literal) (cs : List Char) : Opens (chars numberChars v ++ cs) := by
  cases v with
  | null => exact ⟨_, _, rfl, by decide⟩
  | bool b => cases b <;> exact ⟨_, _, rfl, by decide⟩
  | number n =>
    obtain ⟨t, ht, htext⟩ := n.exists_token
    obtain ⟨c, rest, hcons, hc⟩ := NumberToken.exists_text_cons ht
    refine ⟨c, rest ++ cs, ?_, by rw [opening?_number hc]; rfl⟩
    rw [chars, numberChars, ← htext, hcons, List.cons_append]
  | string s => exact ⟨_, _, rfl, by decide⟩
  | array items => exact ⟨_, _, rfl, by decide⟩
  | object members => exact ⟨_, _, rfl, by decide⟩

theorem skipBlanks_of_opens {cs : List Char} (h : Opens cs) : skipBlanks cs = cs := by
  obtain ⟨c, rest, rfl, hc⟩ := h
  simp [skipBlanks, not_blank_of_opening hc]

/-- A number is read as its text. -/
theorem readValue_number (n : Number) {rest : List Char} (hrest : NumberToken.Ended rest)
    (fuel : Nat) : readValue verbatim (fuel + 1) none (numberChars n ++ rest) =
      .ok (.number n.text, rest) := by
  obtain ⟨t, ht, htext⟩ := n.exists_token
  obtain ⟨c, cs, hcons, hc⟩ := NumberToken.exists_text_cons ht
  have hread := NumberToken.readNumber_text ht hrest .truncated
  have hopen := opening?_number hc
  have hblank := not_blank_of_opening (c := c) (by rw [hopen]; rfl)
  have hstring : String.ofList t.text = n.text := by rw [htext, String.ofList_toList]
  rw [numberChars, ← htext]
  rw [hcons, List.cons_append] at hread ⊢
  simp [readValue, skipBlanks, hblank, hopen, readScalar, verbatim, hread, hstring]

theorem readName_quoted (name : String) (cs : List Char) :
    readName verbatim (quoted name ++ ':' :: cs) = .ok (name, cs) := by
  simp [readName, quoted, skipBlanks, isBlank, readString_escaped, readColon]

/-! ### Items and members -/

section Containers

variable {fuel : Nat} {cs cs' rest : List Char} {x : Json String}

theorem readItems_last (hx : readValue verbatim fuel none cs = .ok (x, ']' :: rest)) :
    readItems verbatim (fuel + 1) none cs = .ok ([x], rest) := by
  simp [readItems, hx, readSeparator, skipBlanks, isBlank]

theorem readItems_more {xs : List (Json String)}
    (hx : readValue verbatim fuel none cs = .ok (x, ',' :: cs'))
    (hxs : readItems verbatim fuel none cs' = .ok (xs, rest)) :
    readItems verbatim (fuel + 1) none cs = .ok (x :: xs, rest) := by
  simp [readItems, hx, hxs, readSeparator, skipBlanks, isBlank]

theorem readMembers_last (name : String)
    (hx : readValue verbatim fuel none cs = .ok (x, '}' :: rest)) :
    readMembers verbatim (fuel + 1) none (quoted name ++ ':' :: cs) = .ok ([(name, x)], rest) := by
  simp [readMembers, readName_quoted, hx, readSeparator, skipBlanks, isBlank]

theorem readMembers_more (name : String) {xs : List (String × Json String)}
    (hx : readValue verbatim fuel none cs = .ok (x, ',' :: cs'))
    (hxs : readMembers verbatim fuel none cs' = .ok (xs, rest)) :
    readMembers verbatim (fuel + 1) none (quoted name ++ ':' :: cs) =
      .ok ((name, x) :: xs, rest) := by
  simp [readMembers, readName_quoted, hx, hxs, readSeparator, skipBlanks, isBlank]

theorem readValue_array {items : List (Json String)} (hopens : Opens cs)
    (h : readItems verbatim fuel none cs = .ok (items, rest)) :
    readValue verbatim (fuel + 1) none ('[' :: cs) = .ok (.array items, rest) := by
  have hskip := skipBlanks_of_opens hopens
  obtain ⟨c, cs, rfl, hc⟩ := hopens
  have hopen : opening? '[' = some .array := by decide
  have hstart : skipBlanks ('[' :: c :: cs) = '[' :: c :: cs := by simp [skipBlanks, isBlank]
  simp [readValue, hstart, hopen, deeper, hskip, (not_blank_of_opening hc).2, h]

theorem readValue_object {members : List (String × Json String)}
    (h : readMembers verbatim fuel none ('"' :: cs) = .ok (members, rest)) :
    readValue verbatim (fuel + 1) none ('{' :: '"' :: cs) = .ok (.object members, rest) := by
  have hopen : opening? '{' = some .object := by decide
  simp [readValue, skipBlanks, isBlank, hopen, deeper, h]

end Containers

/-! ### Whole values -/

theorem ended_moreItemChars (xs : List Literal) (rest : List Char) :
    NumberToken.Ended (moreItemChars numberChars xs ++ rest) := by
  cases xs <;> exact NumberToken.ended_cons (by decide)

theorem ended_moreMemberChars (xs : List (String × Literal)) (rest : List Char) :
    NumberToken.Ended (moreMemberChars numberChars xs ++ rest) := by
  cases xs <;> exact NumberToken.ended_cons (by decide)

mutual

/-- A value is read back from its text, whatever follows that is no part of a number. -/
theorem readValue_chars (v : Literal) (fuel : Nat) {rest : List Char}
    (hrest : NumberToken.Ended rest) (hfuel : 2 * (chars numberChars v ++ rest).length ≤ fuel) :
    readValue verbatim fuel none (chars numberChars v ++ rest) = .ok (v.map Number.text, rest) := by
  obtain ⟨c, cs, hcons, -⟩ := opens_chars v rest
  obtain ⟨fuel, rfl⟩ : ∃ n, fuel = n + 1 := ⟨fuel - 1, by simp [hcons] at hfuel; omega⟩
  match v with
  | .null => simp [chars, readValue, skipBlanks, isBlank, opening?, readScalar, readKeyword, map]
  | .bool b =>
    cases b <;>
      simp [chars, readValue, skipBlanks, isBlank, opening?, readScalar, readKeyword, map]
  | .number n => exact readValue_number n hrest fuel
  | .string s =>
    simp [chars, quoted, readValue, skipBlanks, isBlank, opening?, readScalar, readString_escaped,
      map]
  | .array [] =>
    simp [chars, itemChars, readValue, skipBlanks, isBlank, opening?, deeper, map, mapItems]
  | .array (x :: xs) =>
    refine readValue_array ?_ (readItems_chars (x :: xs) (by simp) fuel rest ?_)
    · simpa [itemChars] using opens_chars x (moreItemChars numberChars xs ++ rest)
    · simp [chars] at hfuel
      simp
      omega
  | .object [] =>
    simp [chars, memberChars, readValue, skipBlanks, isBlank, opening?, deeper, map, mapMembers]
  | .object ((name, x) :: xs) =>
    refine readValue_object (readMembers_chars ((name, x) :: xs) (by simp) fuel rest ?_)
    · simp [chars] at hfuel
      simp
      omega

/-- The items of an array are read back. -/
theorem readItems_chars (items : List Literal) (hne : items ≠ []) (fuel : Nat) (rest : List Char)
    (hfuel : 2 * (itemChars numberChars items ++ rest).length + 1 ≤ fuel) :
    readItems verbatim fuel none (itemChars numberChars items ++ rest) =
      .ok (mapItems Number.text items, rest) := by
  obtain ⟨fuel, rfl⟩ : ∃ n, fuel = n + 1 := ⟨fuel - 1, by omega⟩
  match items with
  | [] => exact absurd rfl hne
  | [x] =>
    have hx := readValue_chars x fuel (ended_moreItemChars [] rest) (by
      simp [itemChars, moreItemChars] at hfuel ⊢
      omega)
    rw [itemChars, List.append_assoc]
    exact readItems_last hx
  | x :: y :: ys =>
    have hx := readValue_chars x fuel (ended_moreItemChars (y :: ys) rest) (by
      simp [itemChars, moreItemChars] at hfuel ⊢
      omega)
    have hxs := readItems_chars (y :: ys) (by simp) fuel rest (by
      simp [itemChars, moreItemChars] at hfuel ⊢
      omega)
    rw [itemChars, List.append_assoc]
    exact readItems_more hx hxs

/-- The members of an object are read back, in their order and with names that are repeated. -/
theorem readMembers_chars (members : List (String × Literal)) (hne : members ≠ []) (fuel : Nat)
    (rest : List Char) (hfuel : 2 * (memberChars numberChars members ++ rest).length + 1 ≤ fuel) :
    readMembers verbatim fuel none (memberChars numberChars members ++ rest) =
      .ok (mapMembers Number.text members, rest) := by
  obtain ⟨fuel, rfl⟩ : ∃ n, fuel = n + 1 := ⟨fuel - 1, by omega⟩
  match members with
  | [] => exact absurd rfl hne
  | [(name, x)] =>
    have hx := readValue_chars x fuel (ended_moreMemberChars [] rest) (by
      simp [memberChars, moreMemberChars] at hfuel ⊢
      omega)
    simp only [memberChars, List.append_assoc, List.cons_append]
    exact readMembers_last name hx
  | (name, x) :: (name', y) :: ys =>
    have hx := readValue_chars x fuel (ended_moreMemberChars ((name', y) :: ys) rest) (by
      simp [memberChars, moreMemberChars] at hfuel ⊢
      omega)
    have hxs := readMembers_chars ((name', y) :: ys) (by simp) fuel rest (by
      simp [memberChars, moreMemberChars] at hfuel ⊢
      omega)
    simp only [memberChars, List.append_assoc, List.cons_append]
    exact readMembers_more name hx hxs

end

/-- The text of a value is read as this value, with its numbers as their texts. -/
theorem read_print (v : Literal) : read verbatim (Literal.print v) = .ok (v.map Number.text) := by
  have hvalue := readValue_chars v (2 * (chars numberChars v).length + 2)
    NumberToken.ended_nil (by simp)
  rw [List.append_nil] at hvalue
  have hprint : (Literal.print v).toList = chars numberChars v := String.toList_ofList
  have hdepth : verbatim.maxDepth = none := rfl
  have hfront : readFront verbatim (Literal.print v).toList = .ok (v.map Number.text, []) := by
    rw [readFront, hprint, hdepth, hvalue]
  rw [read, hfront, ok_bind]
  rfl

end ComponentTree.Json
