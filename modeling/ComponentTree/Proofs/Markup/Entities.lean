import ComponentTree.Markup.Escape
import Mathlib.Data.List.Basic
import Mathlib.Data.List.Infix

/-!
Escaping by entities.

A table of entities says which characters are escaped and what is written for them. It is such that
an ampersand is only ever the first character of an entity, and that the entities can be told apart
by how they start (`EntityTable`). Whatever the table, an escaped text has none of the escaped
characters apart from the ampersands that open its entities, and reading the entities from left to
right gives the text back, also if the reader knows further ones. Both ways of escaping are
instances: the one for content has six entities, the one for attributes two. Attribute values are
decoded by a reader of these two (`decode`). Main statement: `text_attrValue_lossless`.
-/

namespace ComponentTree.Escape

/-! ### Tables of entities -/

/-- Characters with the entities that are written for them. -/
structure EntityTable where
  entries : List (Char × List Char)
  /-- An ampersand opens an entity, and there is none within. -/
  opens : ∀ e ∈ entries, ∃ name, e.2 = '&' :: name ∧ '&' ∉ name
  ampersand : '&' ∈ entries.map Prod.fst
  clean : ∀ e ∈ entries, ∀ e' ∈ entries, e.1 ∈ e'.2 → e.1 = '&'
  prefixFree : ∀ e ∈ entries, ∀ e' ∈ entries, e.2 <+: e'.2 → e = e'

namespace EntityTable

variable (t : EntityTable)

/-- What is written for a character. -/
def escape (c : Char) : List Char := (t.entries.lookup c).getD [c]

/-- Reads a text whose first characters belong to an entity that has been read. -/
def readFrom : Nat → List Char → List Char
  | _, [] => []
  | skip + 1, _ :: cs => readFrom skip cs
  | 0, c :: cs =>
    match t.entries.find? fun e => e.2.isPrefixOf (c :: cs) with
    | some e => e.1 :: readFrom (e.2.length - 1) cs
    | none => c :: readFrom 0 cs

/-- A text as it is read from left to right, with the entities of the table decoded. -/
def read (cs : List Char) : List Char := t.readFrom 0 cs

/-- Every ampersand of a text is the start of an entity of the table. -/
def AccountsFor (cs : List Char) : Prop :=
  ∀ front rest, cs = front ++ '&' :: rest → ∃ e ∈ t.entries, e.2 <+: '&' :: rest

variable {t}

/-- A character is written as its entity if it has one, and as it is if not. -/
theorem escape_cases (c : Char) :
    (c, t.escape c) ∈ t.entries ∨ c ∉ t.entries.map Prod.fst ∧ t.escape c = [c] := by
  cases h : t.entries.lookup c with
  | some entity =>
    obtain ⟨before, after, hentries, -⟩ := List.lookup_eq_some_iff.mp h
    have hescape : t.escape c = entity := by simp [escape, h]
    left
    simp [hescape, hentries]
  | none =>
    right
    have hnone := List.lookup_eq_none_iff.mp h
    exact ⟨by simpa using fun entity he => hnone (c, entity) he, by simp [escape, h]⟩

/-! ### What is in an escaped text -/

/-- Of the characters that are escaped, only the ampersand is in an escaped text. -/
theorem notMem_escaped {e : Char × List Char} (he : e ∈ t.entries) (hamp : e.1 ≠ '&')
    (cs : List Char) : e.1 ∉ cs.flatMap t.escape := by
  intro hm
  obtain ⟨c, -, hc⟩ := List.mem_flatMap.mp hm
  rcases t.escape_cases c with hentry | ⟨hkey, hself⟩
  · exact hamp (t.clean e he _ hentry hc)
  · rw [hself, List.mem_singleton] at hc
    exact hkey (List.mem_map.mpr ⟨e, he, hc⟩)

theorem accountsFor_nil : t.AccountsFor [] := fun _ _ h => by simp at h

theorem accountsFor_escape_append (c : Char) {cs : List Char} (h : t.AccountsFor cs) :
    t.AccountsFor (t.escape c ++ cs) := by
  intro front rest heq
  rcases List.append_eq_append_iff.mp heq with ⟨within, -, hrest⟩ | ⟨within, hfront, hrest⟩
  · exact h within rest hrest
  -- the ampersand is in what is written for the character, or right behind it
  · cases within with
    | nil => exact h [] rest hrest.symm
    | cons d within =>
      obtain ⟨rfl, rfl⟩ := List.cons.inj hrest
      rcases t.escape_cases c with hentry | ⟨hkey, hself⟩
      · obtain ⟨name, hname, hnot⟩ := t.opens _ hentry
        cases front with
        | nil => exact ⟨_, hentry, cs, by simp [hfront]⟩
        | cons d front =>
          rw [show t.escape c = '&' :: name from hname] at hfront
          exact absurd (by simp [(List.cons.inj hfront).2]) hnot
      · have hc : '&' = c := by
          have hm : '&' ∈ t.escape c := by simp [hfront]
          simpa [hself] using hm
        exact absurd (hc ▸ t.ampersand) hkey

/-- All ampersands of an escaped text belong to its entities. -/
theorem accountsFor_escaped (cs : List Char) : t.AccountsFor (cs.flatMap t.escape) := by
  induction cs with
  | nil => exact accountsFor_nil
  | cons c cs ih => exact accountsFor_escape_append c ih

/-! ### Reading an escaped text -/

theorem readFrom_length (skipped cs : List Char) :
    t.readFrom skipped.length (skipped ++ cs) = t.read cs := by
  induction skipped with
  | nil => rfl
  | cons c skipped ih => exact ih

/-- An entity is read as its character. -/
theorem read_entity {e : Char × List Char} (he : e ∈ t.entries) (cs : List Char) :
    t.read (e.2 ++ cs) = e.1 :: t.read cs := by
  obtain ⟨name, hname, -⟩ := t.opens e he
  have hfind : (t.entries.find? fun e' => e'.2.isPrefixOf ('&' :: (name ++ cs))) = some e := by
    have hprefix : e.2 <+: '&' :: (name ++ cs) := ⟨cs, by simp [hname]⟩
    cases hf : t.entries.find? fun e' => e'.2.isPrefixOf ('&' :: (name ++ cs)) with
    | none =>
      have hnot := List.find?_eq_none.mp hf e he
      exact absurd (List.isPrefixOf_iff_prefix.mpr hprefix) hnot
    | some e' =>
      have he' := List.mem_of_find?_eq_some hf
      have hstarts : e'.2.isPrefixOf ('&' :: (name ++ cs)) = true := by
        simpa using List.find?_some hf
      have hprefix' := List.isPrefixOf_iff_prefix.mp hstarts
      rcases List.prefix_or_prefix_of_prefix hprefix hprefix' with h | h
      · rw [t.prefixFree e he e' he' h]
      · rw [t.prefixFree e' he' e he h]
  rw [hname, List.cons_append, read, readFrom, hfind]
  simp only [hname, List.length_cons, Nat.add_sub_cancel, readFrom_length]

/-- A character at which no entity starts is read as it is. -/
theorem read_cons {c : Char} {cs : List Char} (h : ∀ e ∈ t.entries, ¬e.2 <+: c :: cs) :
    t.read (c :: cs) = c :: t.read cs := by
  have hfind : (t.entries.find? fun e => e.2.isPrefixOf (c :: cs)) = none :=
    List.find?_eq_none.mpr fun e he hstarts => h e he (List.isPrefixOf_iff_prefix.mp hstarts)
  rw [read, readFrom, hfind, read]

theorem not_prefix_of_ne {c : Char} (hc : c ≠ '&') (cs : List Char) :
    ∀ e ∈ t.entries, ¬e.2 <+: c :: cs := by
  intro e he hprefix
  obtain ⟨name, hname, -⟩ := t.opens e he
  rw [hname, List.cons_prefix_cons] at hprefix
  exact hc hprefix.1.symm

/-- A text without ampersands is read as it is. -/
theorem read_of_notMem : ∀ {cs : List Char}, '&' ∉ cs → t.read cs = cs
  | [], _ => rfl
  | c :: cs, h => by
    rw [List.mem_cons, not_or] at h
    rw [read_cons (not_prefix_of_ne (Ne.symm h.1) cs), read_of_notMem h.2]

/-- An escaped text is read back by every reader that knows the entities. -/
theorem read_escaped {t' : EntityTable} (hsub : t.entries ⊆ t'.entries) (cs : List Char) :
    t'.read (cs.flatMap t.escape) = cs := by
  induction cs with
  | nil => rfl
  | cons c cs ih =>
    rw [List.flatMap_cons]
    rcases t.escape_cases c with hentry | ⟨hkey, hself⟩
    · rw [read_entity (hsub hentry), ih]
    · have hc : c ≠ '&' := fun hc => hkey (hc ▸ t.ampersand)
      rw [hself, List.singleton_append, read_cons (not_prefix_of_ne hc _), ih]

end EntityTable

/-! ### The entities of content and of attributes -/

/-- The six entities of text content. -/
def textEntities : EntityTable where
  entries := [('&', "&amp;".toList), ('<', "&lt;".toList), ('>', "&gt;".toList),
    ('"', "&quot;".toList), ('\'', "&#x27;".toList), ('/', "&#x2F;".toList)]
  opens := by simp
  ampersand := by decide
  clean := by decide
  prefixFree := by decide

/-- The two entities of attribute values. -/
def attrEntities : EntityTable where
  entries := [('&', "&amp;".toList), ('"', "&quot;".toList)]
  opens := by simp
  ampersand := by decide
  clean := by decide
  prefixFree := by decide

/-- A character inside a double-quoted attribute. -/
def attrChar (c : Char) : List Char :=
  if c = '&' then ['&', 'a', 'm', 'p', ';']
  else if c = '"' then ['&', 'q', 'u', 'o', 't', ';']
  else [c]

/-- Both replacements can be made at once. -/
theorem toList_attrValue (s : String) : (attrValue s).toList = s.toList.flatMap attrChar := by
  have hchar : ∀ c : Char, replaceChar '"' ['&', 'q', 'u', 'o', 't', ';']
      (if c = '&' then ['&', 'a', 'm', 'p', ';'] else [c]) = attrChar c := by
    intro c
    unfold attrChar
    split
    · rfl
    · exact List.flatMap_singleton ..
  unfold attrValue
  split
  · rw [String.toList_ofList]
    unfold replaceChar
    rw [List.flatMap_assoc]
    exact List.flatMap_congr fun c _ => hchar c
  · rename_i h
    have hplain : ∀ c ∈ s.toList, attrChar c = [c] := by
      intro c hc
      have hc' := List.any_eq_false.mp (Bool.eq_false_iff.mpr h) c hc
      simp only [Bool.or_eq_true, decide_eq_true_eq, not_or] at hc'
      rw [attrChar, if_neg hc'.1, if_neg hc'.2]
    rw [List.flatMap_congr hplain, List.flatMap_singleton']

theorem textChar_eq (c : Char) : textChar c = textEntities.escape c := by
  simp only [textChar, EntityTable.escape, textEntities, List.lookup_cons]
  grind

theorem attrChar_eq (c : Char) : attrChar c = attrEntities.escape c := by
  simp only [attrChar, EntityTable.escape, attrEntities, List.lookup_cons]
  grind

theorem toList_text (s : String) : (text s).toList = s.toList.flatMap textEntities.escape := by
  rw [text, String.toList_ofList]
  exact List.flatMap_congr fun c _ => textChar_eq c

theorem toList_attrValue_eq (s : String) :
    (attrValue s).toList = s.toList.flatMap attrEntities.escape := by
  rw [toList_attrValue]
  exact List.flatMap_congr fun c _ => attrChar_eq c

theorem quote_notMem_attrValue (s : String) : '"' ∉ (attrValue s).toList := by
  rw [toList_attrValue_eq]
  exact EntityTable.notMem_escaped (e := ('"', "&quot;".toList)) (by decide) (by decide) _

/-- A value as it is read, with the entities of attributes decoded. -/
def decode (cs : List Char) : List Char := attrEntities.read cs

theorem decode_of_notMem {cs : List Char} (h : '&' ∉ cs) : decode cs = cs :=
  EntityTable.read_of_notMem h

/-- An escaped value is decoded to the value. -/
theorem decode_attrValue (s : String) : decode (attrValue s).toList = s.toList := by
  rw [toList_attrValue_eq]
  exact EntityTable.read_escaped (List.Subset.refl _) _

/-- Escaping is safe and loses nothing, whatever the text. Escaped content has no angle, quote or
slash, and its ampersands open one of the six entities; an escaped attribute value has no double
quote, and its ampersands open one of the two. The text is read back from both, from the attribute
value also by a reader of all six entities. And the value of an attribute, for which first the
ampersands and then the quotes are replaced, and which may be left alone, has each character
escaped once. -/
theorem text_attrValue_lossless (s : String) :
    (∀ c ∈ ['<', '>', '"', '\'', '/'], c ∉ (text s).toList) ∧
    textEntities.AccountsFor (text s).toList ∧
    textEntities.read (text s).toList = s.toList ∧
    '"' ∉ (attrValue s).toList ∧
    attrEntities.AccountsFor (attrValue s).toList ∧
    attrEntities.read (attrValue s).toList = s.toList ∧
    textEntities.read (attrValue s).toList = s.toList ∧
    attrValue s = String.ofList (s.toList.flatMap attrChar) := by
  have hplain : ∀ c ∈ ['<', '>', '"', '\'', '/'],
      c ≠ '&' ∧ c ∈ textEntities.entries.map Prod.fst := by simp [textEntities]
  refine ⟨fun c hc => ?_, ?_, ?_, quote_notMem_attrValue s, ?_, ?_, ?_, ?_⟩
  · obtain ⟨hamp, hkey⟩ := hplain c hc
    obtain ⟨e, he, rfl⟩ := List.mem_map.mp hkey
    rw [toList_text]
    exact EntityTable.notMem_escaped he hamp _
  · rw [toList_text]
    exact EntityTable.accountsFor_escaped _
  · rw [toList_text]
    exact EntityTable.read_escaped (List.Subset.refl _) _
  · rw [toList_attrValue_eq]
    exact EntityTable.accountsFor_escaped _
  · exact decode_attrValue s
  · rw [toList_attrValue_eq]
    exact EntityTable.read_escaped (by decide) _
  · rw [← toList_attrValue, String.ofList_toList]

end ComponentTree.Escape
