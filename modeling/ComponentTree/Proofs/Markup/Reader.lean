import ComponentTree.Markup
import Mathlib.Data.List.TakeWhile

/-!
Reading markup back.

A reader goes through markup character by character. Outside of tags it looks for the angle that
opens one. Inside a tag it looks for the angle that closes it, but while quotes are open only for
the quote that closes them (`scan`). The text of a tag is then cut at the spaces outside of quotes
(`words`), and the words are the name and the attributes. A text is passed as a whole if what the
reader looks for is between quotes in it, and all quotes are closed at its end (`Sealed`). Main
statement: of a tag that was printed the reader finds the name and the attributes that it was
printed from, and then what follows the tag (`scan_opening`, `scan_empty`, `scan_closing`).
-/

namespace ComponentTree.Markup

/-- An attribute as it stands in a tag. -/
inductive Attribute where
  | bare (name : String)
  /-- With the text between the quotes as it is. -/
  | quoted (name value : String)
deriving DecidableEq, Repr

/-- What a reader finds in markup. -/
inductive Token where
  | opening (name : String) (attributes : List Attribute)
  | closing (name : String)
  /-- A tag that closes itself. -/
  | empty (name : String) (attributes : List Attribute)
  /-- A tag that does not end. -/
  | broken
deriving DecidableEq, Repr

/-! ### The reader -/

/-- The quote that is open after a character, if any. -/
def quoteAfter (quote : Option Char) (c : Char) : Option Char :=
  match quote with
  | some q => if c = q then none else some q
  | none => if c = '"' ∨ c = '\'' then some c else none

/-- The words of a tag, cut at the spaces outside of quotes; `read` is what was read of the first
one. -/
def words (quote : Option Char) (read : List Char) : List Char → List (List Char)
  | [] => [read]
  | c :: cs =>
    if c = ' ' ∧ quote = none then read :: words none [] cs
    else words (quoteAfter quote c) (read ++ [c]) cs

/-- A word as an attribute. What follows the equality sign is taken for a value in quotes. -/
def Attribute.ofWord (word : List Char) : Attribute :=
  match word.dropWhile (· ≠ '=') with
  | '=' :: _ :: value =>
    .quoted (String.ofList (word.takeWhile (· ≠ '='))) (String.ofList value.dropLast)
  | _ => .bare (String.ofList word)

/-- The name and the attributes in the text of a tag. -/
def nameAndAttributes (tag : List Char) : String × List Attribute :=
  (String.ofList ((words none [] tag).headD []), (words none [] tag).tail.map Attribute.ofWord)

/-- The text between the angles of a tag as a token. -/
def Token.ofTag (tag : List Char) : Token :=
  match tag with
  | '/' :: name => .closing (String.ofList name)
  | _ =>
    if tag.getLast? = some '/' then
      .empty (nameAndAttributes tag.dropLast).1 (nameAndAttributes tag.dropLast).2
    else .opening (nameAndAttributes tag).1 (nameAndAttributes tag).2

/-- Where a reader is. -/
inductive Mode where
  | outside
  /-- In a tag of which some was read, with an open quote or none. -/
  | inside (read : List Char) (quote : Option Char)

/-- The tokens of markup. -/
def scan : Mode → List Char → List Token
  | .outside, [] => []
  | .outside, c :: cs => if c = '<' then scan (.inside [] none) cs else scan .outside cs
  | .inside _ _, [] => [.broken]
  | .inside read quote, c :: cs =>
    if c = '>' ∧ quote = none then Token.ofTag read :: scan .outside cs
    else scan (.inside (read ++ [c]) (quoteAfter quote c)) cs

/-- The tokens of a text. -/
def tokensOf (s : String) : List Token := scan .outside s.toList

/-! ### Texts that are passed as a whole -/

/-- A text in which `stop` does not occur but between quotes, and which closes all its quotes. -/
def Sealed (stop : Char) (quote : Option Char) : List Char → Prop
  | [] => quote = none
  | c :: cs => ¬ (c = stop ∧ quote = none) ∧ Sealed stop (quoteAfter quote c) cs

variable {stop : Char} {quote : Option Char} {a b : List Char}

theorem Sealed.append (hb : Sealed stop none b) :
    ∀ {quote a}, Sealed stop quote a → Sealed stop quote (a ++ b)
  | _, [], ha => by
    obtain rfl : _ = none := ha
    exact hb
  | _, _ :: _, ha => ⟨ha.1, append hb ha.2⟩

theorem words_append (rest : List Char) : ∀ {quote a}, Sealed ' ' quote a → ∀ read,
    words quote read (a ++ rest) = words none (read ++ a) rest
  | _, [], ha, read => by
    obtain rfl : _ = none := ha
    rw [List.nil_append, List.append_nil]
  | _, c :: cs, ha, read => by
    rw [List.cons_append, words, if_neg ha.1, words_append rest ha.2, List.append_assoc]
    rfl

theorem scan_append (rest : List Char) : ∀ {quote a}, Sealed '>' quote a → ∀ read,
    scan (.inside read quote) (a ++ rest) = scan (.inside (read ++ a) none) rest
  | _, [], ha, read => by
    obtain rfl : _ = none := ha
    rw [List.nil_append, List.append_nil]
  | _, c :: cs, ha, read => by
    rw [List.cons_append, scan, if_neg ha.1, scan_append rest ha.2, List.append_assoc]
    rfl

/-- Text without an angle that opens a tag is passed over. -/
theorem scan_outside (rest : List Char) : ∀ {text : List Char}, '<' ∉ text →
    scan .outside (text ++ rest) = scan .outside rest
  | [], _ => rfl
  | c :: cs, h => by
    have hc : c ≠ '<' := fun hc => h (hc ▸ List.mem_cons_self ..)
    have hcs : '<' ∉ cs := fun hm => h (List.mem_cons_of_mem _ hm)
    rw [List.cons_append, scan, if_neg hc, scan_outside rest hcs]

/-- Between double quotes there may be everything but a double quote. -/
theorem sealed_value (stop : Char) :
    ∀ {value : List Char}, '"' ∉ value → Sealed stop (some '"') (value ++ ['"'])
  | [], _ => ⟨fun h => Option.some_ne_none _ h.2, rfl⟩
  | c :: cs, h => by
    have hc : c ≠ '"' := fun hc => h (hc ▸ List.mem_cons_self ..)
    have hquote : quoteAfter (some '"') c = some '"' := if_neg hc
    refine ⟨fun h => Option.some_ne_none _ h.2, ?_⟩
    rw [hquote]
    exact sealed_value stop fun hm => h (List.mem_cons_of_mem _ hm)

/-! ### Names -/

/-- The characters that end a name. -/
def delimiters : List Char := [' ', '"', '\'', '>', '/', '=']

/-- A name of a tag or of an attribute. -/
def IsName (s : String) : Prop := s ≠ "" ∧ ∀ c ∈ s.toList, c ∉ delimiters

instance (s : String) : Decidable (IsName s) :=
  @instDecidableAnd _ _ _ (List.decidableBAll (· ∉ delimiters) s.toList)

theorem sealed_name {s : List Char} (hs : ∀ c ∈ s, c ∉ delimiters) (hstop : stop ∈ delimiters) :
    Sealed stop none s := by
  induction s with
  | nil => rfl
  | cons c cs ih =>
    have hc := hs c (List.mem_cons_self ..)
    have hquote : quoteAfter none c = none := by
      refine if_neg ?_
      rintro (rfl | rfl) <;> exact hc (by decide)
    refine ⟨fun h => hc (h.1 ▸ hstop), ?_⟩
    rw [hquote]
    exact ih fun d hd => hs d (List.mem_cons_of_mem _ hd)

/-! ### Printed tags -/

/-- The text of an attribute. -/
def Attribute.text : Attribute → List Char
  | .bare name => name.toList
  | .quoted name value => name.toList ++ '=' :: '"' :: (value.toList ++ ['"'])

/-- An attribute that can be read back: it has a name, and its value has no double quote. -/
def Attribute.Legible : Attribute → Prop
  | .bare name => IsName name
  | .quoted name value => IsName name ∧ '"' ∉ value.toList

/-- The text of attributes, each after a space. -/
def attributesText (attributes : List Attribute) : List Char :=
  attributes.flatMap fun a => ' ' :: a.text

/-- The text of a tag that has a name and attributes. -/
def tagText (name : String) (attributes : List Attribute) : List Char :=
  name.toList ++ attributesText attributes

theorem attributesText_cons (a : Attribute) (attributes : List Attribute) :
    attributesText (a :: attributes) = ' ' :: (a.text ++ attributesText attributes) := rfl

theorem attributesText_append (attributes others : List Attribute) :
    attributesText (attributes ++ others) = attributesText attributes ++ attributesText others :=
  List.flatMap_append

theorem Attribute.sealed_text {a : Attribute} (h : a.Legible) (hstop : stop = ' ' ∨ stop = '>') :
    Sealed stop none a.text := by
  have hmem : stop ∈ delimiters := by rcases hstop with rfl | rfl <;> decide
  have hquote : stop ≠ '"' := by rcases hstop with rfl | rfl <;> decide
  have hequals : '=' ≠ stop := by rcases hstop with rfl | rfl <;> decide
  cases a with
  | bare name => exact sealed_name h.2 hmem
  | quoted name value =>
    have hvalue : Sealed stop none ('=' :: '"' :: (value.toList ++ ['"'])) :=
      ⟨fun h => hequals h.1, fun h => hquote h.1.symm, sealed_value stop h.2⟩
    exact hvalue.append (sealed_name h.1.2 hmem)

/-- The text of an attribute is read as the attribute. -/
theorem Attribute.ofWord_text {a : Attribute} (h : a.Legible) : ofWord a.text = a := by
  have hname : ∀ {name : String}, IsName name → ∀ c ∈ name.toList, decide (c ≠ '=') = true :=
    fun h c hc => decide_eq_true fun he => h.2 c hc (he ▸ by decide)
  cases a with
  | bare name =>
    have hdrop : name.toList.dropWhile (· ≠ '=') = [] :=
      List.dropWhile_eq_nil_iff.mpr (hname h)
    rw [text, ofWord, hdrop, String.ofList_toList]
  | quoted name value =>
    rw [text, ofWord, List.dropWhile_append_of_pos (hname h.1),
      List.takeWhile_append_of_pos (hname h.1)]
    simp

theorem words_attributesText : ∀ {attributes : List Attribute} (read : List Char),
    (∀ a ∈ attributes, a.Legible) →
      words none read (attributesText attributes) = read :: attributes.map Attribute.text
  | [], read, _ => rfl
  | a :: rest, read, h => by
    have ha := Attribute.sealed_text (h a (List.mem_cons_self ..)) (Or.inl rfl)
    rw [attributesText_cons, words, if_pos ⟨rfl, rfl⟩, words_append _ ha, List.nil_append,
      words_attributesText a.text fun b hb => h b (List.mem_cons_of_mem _ hb), List.map_cons]

variable {name : String} {attributes : List Attribute}

theorem nameAndAttributes_tagText (hname : IsName name) (h : ∀ a ∈ attributes, a.Legible) :
    nameAndAttributes (tagText name attributes) = (name, attributes) := by
  have hread : (attributes.map Attribute.text).map Attribute.ofWord = attributes := by
    rw [List.map_map]
    exact (List.map_congr_left fun a ha => Attribute.ofWord_text (h a ha)).trans (List.map_id _)
  have hwords : words none [] (tagText name attributes) =
      name.toList :: attributes.map Attribute.text := by
    rw [tagText, words_append _ (sealed_name hname.2 (by decide)), List.nil_append,
      words_attributesText _ h]
  rw [nameAndAttributes, hwords, List.headD_cons, List.tail_cons, hread, String.ofList_toList]

theorem sealed_tagText (hname : IsName name) (h : ∀ a ∈ attributes, a.Legible) :
    Sealed '>' none (tagText name attributes) := by
  refine .append ?_ (sealed_name hname.2 (by decide))
  induction attributes with
  | nil => rfl
  | cons a rest ih =>
    have ha := Attribute.sealed_text (h a (List.mem_cons_self ..)) (Or.inr rfl)
    exact .append (ih fun b hb => h b (List.mem_cons_of_mem _ hb)) ⟨by decide, ha⟩

theorem getLast?_append_ne {c : Char} (ha : a.getLast? ≠ some c) (hb : b.getLast? ≠ some c) :
    (a ++ b).getLast? ≠ some c := by
  rw [List.getLast?_append]
  cases hlast : b.getLast? with
  | none => exact ha
  | some d =>
    rw [hlast] at hb
    exact hb

theorem getLast?_name {s : List Char} (hs : ∀ c ∈ s, c ∉ delimiters) : s.getLast? ≠ some '/' :=
  fun h => hs _ (List.mem_of_getLast? h) (by decide)

/-- The text of a tag does not end with a slash: one that stands there closes the tag. -/
theorem getLast?_tagText (hname : IsName name) (h : ∀ a ∈ attributes, a.Legible) :
    (tagText name attributes).getLast? ≠ some '/' := by
  refine getLast?_append_ne (getLast?_name hname.2) ?_
  induction attributes with
  | nil => exact nofun
  | cons a rest ih =>
    have ha : a.text.getLast? ≠ some '/' := by
      cases a with
      | bare => exact getLast?_name (h _ (List.mem_cons_self ..)).2
      | quoted name value => simp [Attribute.text, List.getLast?_cons]
    have hspaced := getLast?_append_ne (a := [' ']) (by decide) ha
    exact getLast?_append_ne hspaced (ih fun b hb => h b (List.mem_cons_of_mem _ hb))

theorem Token.ofTag_tagText (hname : IsName name) (h : ∀ a ∈ attributes, a.Legible) :
    ofTag (tagText name attributes) = .opening name attributes ∧
      ofTag (tagText name attributes ++ ['/']) = .empty name attributes := by
  have hread := nameAndAttributes_tagText hname h
  have hlast := getLast?_tagText hname h
  obtain ⟨c, cs, htag⟩ : ∃ c cs, name.toList = c :: cs :=
    List.exists_cons_of_ne_nil fun hnil => hname.1 (String.toList_eq_nil_iff.mp hnil)
  have hc : c ≠ '/' := fun hc => hname.2 c (htag ▸ List.mem_cons_self ..) (hc ▸ by decide)
  have hother : ∀ tag : List Char, tag.head? = some c → ofTag tag =
      if tag.getLast? = some '/' then
        .empty (nameAndAttributes tag.dropLast).1 (nameAndAttributes tag.dropLast).2
      else .opening (nameAndAttributes tag).1 (nameAndAttributes tag).2 := by
    intro tag htag
    unfold ofTag
    split
    · exact absurd (Option.some.inj htag).symm hc
    · rfl
  have hhead : ∀ more, (tagText name attributes ++ more).head? = some c := by
    intro more
    rw [tagText, htag]
    rfl
  constructor
  · rw [hother _ (by simpa using hhead []), if_neg hlast, hread]
  · rw [hother _ (hhead _), List.getLast?_concat, if_pos rfl, List.dropLast_concat, hread]

theorem scan_tag (rest : List Char) {tag : List Char} (h : Sealed '>' none tag) :
    scan .outside ('<' :: (tag ++ '>' :: rest)) = Token.ofTag tag :: scan .outside rest := by
  rw [scan, if_pos rfl, scan_append _ h, scan, if_pos ⟨rfl, rfl⟩, List.nil_append]

theorem scan_opening (hname : IsName name) (h : ∀ a ∈ attributes, a.Legible) (rest : List Char) :
    scan .outside ('<' :: (tagText name attributes ++ '>' :: rest)) =
      .opening name attributes :: scan .outside rest := by
  rw [scan_tag rest (sealed_tagText hname h), (Token.ofTag_tagText hname h).1]

theorem scan_empty (hname : IsName name) (h : ∀ a ∈ attributes, a.Legible) (rest : List Char) :
    scan .outside ('<' :: (tagText name attributes ++ '/' :: '>' :: rest)) =
      .empty name attributes :: scan .outside rest := by
  have hslash : Sealed '>' none ['/'] := ⟨by decide, rfl⟩
  have hscan := scan_tag rest (hslash.append (sealed_tagText hname h))
  rw [List.append_assoc] at hscan
  exact hscan.trans (by rw [(Token.ofTag_tagText hname h).2])

theorem scan_closing (hname : IsName name) (rest : List Char) :
    scan .outside ('<' :: '/' :: (name.toList ++ '>' :: rest)) =
      .closing name :: scan .outside rest := by
  have hclosing : Sealed '>' none ('/' :: name.toList) :=
    ⟨by decide, sealed_name hname.2 (by decide)⟩
  have hscan := scan_tag rest hclosing
  rw [Token.ofTag, String.ofList_toList] at hscan
  exact hscan

end ComponentTree.Markup
