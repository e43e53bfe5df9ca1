import ComponentTree.Proofs.Markup.Entities
import ComponentTree.Proofs.Markup.Identity
import ComponentTree.Proofs.Markup.Reader
import Mathlib.Data.List.Basic

/-!
The attributes of a record in its markup.

A record asks for a tag, a class, its component's name as data, the attributes that rules set, and
the payload for the client. What it asks for is told from its fields alone (`askedTag`,
`attributesOf`), and the writer keeps to that (`toList_openingTag`). The texts of the last two are
escaped when they are written; class and component are written as they are. Main statements: a
record whose component, variant, part and states have neither double quotes nor ampersands is read
back with exactly the attributes that it asks for (`tokensOf_record`). A component's name with a
double quote is read as further attributes.
-/

namespace ComponentTree

theorem Node.toLiterals_eq (ns : List Node) : Node.toLiterals ns = ns.map Node.toLiteral := by
  induction ns with
  | nil => rfl
  | cons n ns ih => rw [Node.toLiterals, ih, List.map_cons]

namespace Markup

/-! ### What a record asks for -/

/-- The attribute that a rule asked for, with `value` applied to its text. -/
def ownAttribute (value : String → String) (entry : String × Attr) : List Attribute :=
  match entry.2 with
  | .flag => [.bare entry.1]
  | .text s => [.quoted entry.1 (value s)]
  | .null => []

/-- The tag of a record, `div` if it was given none. -/
def askedTag (r : Record) : String := r.rendering.tag.getD "div"

/-- The tags of elements that have no content. -/
def contentless : List String :=
  ["area", "base", "br", "col", "command", "embed", "hr", "img", "input", "keygen", "link",
    "meta", "param", "source", "wbr"]

/-- The word for the component, with its variant and its part. -/
def ownerWord (r : Record) : Option String :=
  r.component.map fun component =>
    component ++ r.variant.elim "" ("_" ++ ·) ++ r.part.elim "" ("__" ++ ·)

/-- The word for a state, unless it is `false`, `null` or an empty text. -/
def stateWord : String × StateValue → Option String
  | (name, .bool true) => some ("_" ++ name)
  | (name, .text s) => if s = "" then none else some ("_" ++ name ++ "_" ++ s)
  | _ => none

/-- The words of the class: the component, the states that are set, and a mark if the record is to
be initialized on the client. -/
def classWords (r : Record) : List String :=
  (ownerWord r).toList ++ r.rendering.state.entries.filterMap stateWord ++
    if r.rendering.autoInit = some true ∨ r.mixins ≠ [] then ["_init"] else []

/-- The class of a record. -/
def classValue (r : Record) : String := String.intercalate " " (classWords r)

/-- The class, unless it is turned off or empty. -/
def classAttribute (r : Record) : List Attribute :=
  if r.rendering.classDisabled || classValue r = "" then [] else [.quoted "class" (classValue r)]

/-- The component's name, unless it is turned off or the record is a part. -/
def dataAttribute (r : Record) : List Attribute :=
  match r.component with
  | some component =>
    if r.rendering.dataDisabled || r.part.isSome then [] else [.quoted "data-block" component]
  | none => []

/-- The data for the client: the init options if they were set, and the mixins if there are any. -/
def clientData (r : Record) : List (String × Literal) :=
  (r.rendering.initOptions.map fun options => ("options", .object options.entries)).toList ++
    if r.mixins = [] then [] else [("mixins", .array (r.mixins.map Node.toLiteral))]

/-- The payload for the client, if there is any data for it. -/
def askedPayload (r : Record) : Option Literal :=
  match clientData r with
  | [] => none
  | members => some (.object members)

/-- The payload for the client, with `value` applied to its text. -/
def payloadAttribute (value : String → String) (r : Record) : List Attribute :=
  match askedPayload r with
  | some v => [.quoted "data-options" (value (Literal.print v))]
  | none => []

/-- The attributes of a record in their order, with `value` applied to the texts of its own ones
and to the payload. -/
def attributesOf (value : String → String) (r : Record) : List Attribute :=
  classAttribute r ++ dataAttribute r ++ r.rendering.attrs.entries.flatMap (ownAttribute value) ++
    payloadAttribute value r

/-! ### What is written of it -/

theorem tagOf_eq (r : Record) : tagOf r = askedTag r := rfl

theorem voidTags_eq : voidTags = contentless := rfl

theorem renderRecord_asked (r : Record) : renderRecord r =
    if askedTag r ∈ contentless then openingTag r ++ "/>"
    else openingTag r ++ ">" ++ render r.content ++ "</" ++ askedTag r ++ ">" := by
  rw [renderRecord_eq, tagOf_eq, voidTags_eq]
  simp only [List.contains_iff_mem]

theorem baseClass_eq (r : Record) : baseClass r = (ownerWord r).toList := by
  unfold baseClass ownerWord
  cases r.component with
  | none => rfl
  | some component => cases r.variant <;> cases r.part <;> rfl

theorem stateClass_eq (entry : String × StateValue) :
    stateClass entry = (stateWord entry).toList := by
  obtain ⟨name, value⟩ := entry
  cases value with
  | bool b => cases b <;> rfl
  | text s =>
    by_cases hs : s = ""
    · simp [stateClass, stateWord, StateValue.isSet, hs]
    · simp [stateClass, stateWord, StateValue.isSet, hs]
  | null => rfl

theorem classes_eq (r : Record) : classes r = classWords r := by
  have hstates : r.rendering.state.entries.flatMap stateClass =
      r.rendering.state.entries.filterMap stateWord := by
    rw [List.filterMap_eq_flatMap_toList]
    exact List.flatMap_congr fun entry _ => stateClass_eq entry
  unfold classes classWords
  rw [baseClass_eq, hstates]
  cases r.mixins <;> simp [initClass]

theorem payload_eq (r : Record) : payload r = askedPayload r := by
  unfold payload askedPayload clientData
  rw [Node.toLiterals_eq]
  cases r.rendering.initOptions <;> cases r.mixins <;> rfl

theorem toList_quotedAttr (name value : String) :
    (quotedAttr name value).toList = attributesText [.quoted name value] := by
  simp [quotedAttr, attributesText, Attribute.text]

theorem toList_classAttr (r : Record) :
    (classAttr r).toList = attributesText (classAttribute r) := by
  have hclass : classAttr r = if r.rendering.classDisabled || classValue r = "" then ""
      else quotedAttr "class" (classValue r) := by
    unfold classAttr classValue
    rw [classes_eq]
  rw [hclass, classAttribute]
  split
  · rfl
  · exact toList_quotedAttr ..

theorem toList_dataAttr (r : Record) : (dataAttr r).toList = attributesText (dataAttribute r) := by
  unfold dataAttr dataAttribute
  cases r.component with
  | none => rfl
  | some component =>
    dsimp only
    split
    · rfl
    · exact toList_quotedAttr ..

theorem toList_ownAttr (entry : String × Attr) :
    (ownAttr entry).toList = attributesText (ownAttribute Escape.attrValue entry) := by
  obtain ⟨name, value⟩ := entry
  cases value with
  | flag => simp [ownAttr, ownAttribute, attributesText, Attribute.text]
  | text s => exact toList_quotedAttr ..
  | null => rfl

theorem toList_payloadAttr (r : Record) :
    (payloadAttr r).toList = attributesText (payloadAttribute Escape.attrValue r) := by
  unfold payloadAttr payloadAttribute
  rw [payload_eq]
  cases askedPayload r with
  | none => rfl
  | some v => exact toList_quotedAttr ..

/-- An opening tag is printed from the attributes of its record, with escaped texts. -/
theorem toList_openingTag (r : Record) : (openingTag r).toList =
    '<' :: tagText (askedTag r) (attributesOf Escape.attrValue r) := by
  have hown : (String.join (r.rendering.attrs.entries.map ownAttr)).toList =
      attributesText (r.rendering.attrs.entries.flatMap (ownAttribute Escape.attrValue)) := by
    rw [String.toList_join, List.flatMap_map, attributesText, List.flatMap_assoc]
    exact List.flatMap_congr fun entry _ => toList_ownAttr entry
  unfold openingTag tagText attributesOf
  rw [tagOf_eq, attributesText_append, attributesText_append, attributesText_append,
    ← toList_classAttr, ← toList_dataAttr, ← toList_payloadAttr, ← hown]
  simp

/-! ### Texts that are written as they are -/

/-- The tag and the attributes that rules gave to a record have names. -/
structure Named (r : Record) : Prop where
  tag : IsName (askedTag r)
  attributes : ∀ entry ∈ r.rendering.attrs.entries, IsName entry.1

instance (r : Record) : Decidable (Named r) :=
  decidable_of_iff (IsName (askedTag r) ∧ ∀ entry ∈ r.rendering.attrs.entries, IsName entry.1)
    ⟨fun h => ⟨h.1, h.2⟩, fun h => ⟨h.tag, h.attributes⟩⟩

/-- The name of a state, and its text if it has one. -/
def stateTexts : String × StateValue → List String
  | (name, .text s) => [name, s]
  | (name, _) => [name]

/-- What class and component's name are made of: component, variant and part, and the names and
texts of the states. These texts are written as they are. -/
def bareTexts (r : Record) : List String :=
  r.component.toList ++ r.variant.toList ++ r.part.toList ++
    r.rendering.state.entries.flatMap stateTexts

/-- A character does not occur in the texts of a record that are written as they are. -/
def Spares (c : Char) (r : Record) : Prop := ∀ s ∈ bareTexts r, c ∉ s.toList

instance (c : Char) (r : Record) : Decidable (Spares c r) :=
  inferInstanceAs (Decidable (∀ s ∈ bareTexts r, c ∉ s.toList))

theorem notMem_intercalate {α : Type} {c : α} {sep : List α} (hsep : c ∉ sep) :
    ∀ {pieces : List (List α)}, (∀ piece ∈ pieces, c ∉ piece) → c ∉ sep.intercalate pieces
  | [], _ => List.not_mem_nil
  | [a], h => by simpa using h
  | a :: b :: rest, h => by
    have hrest := notMem_intercalate hsep fun p hp => h p (List.mem_cons_of_mem _ hp)
    rw [List.intercalate_cons_cons]
    simp only [List.mem_append, not_or]
    exact ⟨⟨h a (List.mem_cons_self ..), hsep⟩, hrest⟩

variable {c : Char} {r : Record}

theorem notMem_component (h : Spares c r) : ∀ s ∈ r.component, c ∉ s.toList :=
  fun s hs => h s (by simp [bareTexts, Option.mem_def.mp hs])

theorem notMem_ownerWord (hc : c ≠ '_') (h : Spares c r) :
    ∀ text ∈ ownerWord r, c ∉ text.toList := by
  obtain ⟨key, component, part, variant, params, content, mixins, rendering⟩ := r
  cases component with
  | none => exact fun _ hm => absurd hm (Option.not_mem_none _)
  | some component => cases variant <;> cases part <;> simp_all [ownerWord, Spares, bareTexts]

theorem notMem_stateWord (hc : c ≠ '_') (h : Spares c r) :
    ∀ entry ∈ r.rendering.state.entries, ∀ text ∈ stateWord entry, c ∉ text.toList := by
  rintro ⟨name, value⟩ hentry text htext
  have hmem : ∀ s ∈ stateTexts (name, value), c ∉ s.toList := fun s hs =>
    h s (List.mem_append_right _ (List.mem_flatMap.mpr ⟨_, hentry, hs⟩))
  cases value with
  | bool b =>
    cases b with
    | false => cases htext
    | true =>
      obtain rfl := Option.some.inj htext
      simp [hc, hmem name (List.mem_cons_self ..)]
  | text s =>
    rw [stateWord] at htext
    split at htext
    · cases htext
    · obtain rfl := Option.some.inj htext
      simp [hc, hmem name (by simp [stateTexts]), hmem s (by simp [stateTexts])]
  | null => cases htext

/-- A character that the writer does not write of its own is in the class only if it is in what the
class is made of. -/
theorem notMem_classValue (hc : c ∉ " _init".toList) (h : Spares c r) :
    c ∉ (classValue r).toList := by
  have hspace : c ∉ " ".toList := fun hm => hc (by rw [List.mem_singleton.mp hm]; decide)
  have hunderscore : c ≠ '_' := fun e => hc (e ▸ by decide)
  rw [classValue, String.toList_intercalate]
  refine notMem_intercalate hspace fun piece hpiece => ?_
  obtain ⟨text, htext, rfl⟩ := List.mem_map.mp hpiece
  rw [classWords, List.mem_append, List.mem_append, Option.mem_toList, List.mem_filterMap] at htext
  rcases htext with (hname | ⟨entry, hentry, hstate⟩) | hinit
  · exact notMem_ownerWord hunderscore h _ hname
  · exact notMem_stateWord hunderscore h _ hentry _ hstate
  · split at hinit
    · obtain rfl := List.mem_singleton.mp hinit
      exact fun hm => hc (List.mem_cons_of_mem _ hm)
    · exact absurd hinit List.not_mem_nil

/-! ### Reading a record back -/

/-- The attributes of a record can be read back if no text that is written as it is has a double
quote. -/
theorem legible_attributesOf (hname : Named r) (hquote : Spares '"' r) :
    ∀ a ∈ attributesOf Escape.attrValue r, a.Legible := by
  intro a ha
  simp only [attributesOf, List.mem_append, List.mem_flatMap] at ha
  rcases ha with ((hclass | hdata) | ⟨⟨name, value⟩, hentry, hown⟩) | hpayload
  · unfold classAttribute at hclass
    split at hclass
    · exact absurd hclass List.not_mem_nil
    · obtain rfl := List.mem_singleton.mp hclass
      exact ⟨by decide, notMem_classValue (by decide) hquote⟩
  · unfold dataAttribute at hdata
    cases hcomponent : r.component with
    | none => simp [hcomponent] at hdata
    | some component =>
      rw [hcomponent] at hdata
      dsimp only at hdata
      split at hdata
      · exact absurd hdata List.not_mem_nil
      · obtain rfl := List.mem_singleton.mp hdata
        exact ⟨by decide, notMem_component hquote _ hcomponent⟩
  · cases value with
    | flag =>
      obtain rfl := List.mem_singleton.mp hown
      exact hname.attributes _ hentry
    | text s =>
      obtain rfl := List.mem_singleton.mp hown
      exact ⟨hname.attributes _ hentry, Escape.quote_notMem_attrValue s⟩
    | null => exact absurd hown List.not_mem_nil
  · unfold payloadAttribute at hpayload
    cases hp : askedPayload r with
    | none => simp [hp] at hpayload
    | some v =>
      rw [hp] at hpayload
      obtain rfl := List.mem_singleton.mp hpayload
      exact ⟨by decide, Escape.quote_notMem_attrValue _⟩

/-- An attribute with its value decoded. -/
def Attribute.decoded : Attribute → Attribute
  | .bare name => .bare name
  | .quoted name value => .quoted name (String.ofList (Escape.decode value.toList))

/-- A token with the values of its attributes decoded. -/
def Token.decoded : Token → Token
  | .opening name attributes => .opening name (attributes.map Attribute.decoded)
  | .empty name attributes => .empty name (attributes.map Attribute.decoded)
  | token => token

/-- The attributes of a record are decoded to what it asks for if no text that is written as it is
has an ampersand. -/
theorem decoded_attributesOf (hamp : Spares '&' r) :
    (attributesOf Escape.attrValue r).map Attribute.decoded = attributesOf id r := by
  have hplain : ∀ name value : String, '&' ∉ value.toList →
      (Attribute.quoted name value).decoded = .quoted name value := by
    intro name value h
    rw [Attribute.decoded, Escape.decode_of_notMem h, String.ofList_toList]
  have hescaped : ∀ name value : String,
      (Attribute.quoted name (Escape.attrValue value)).decoded = .quoted name value := by
    intro name value
    rw [Attribute.decoded, Escape.decode_attrValue, String.ofList_toList]
  have hclass : (classAttribute r).map Attribute.decoded = classAttribute r := by
    unfold classAttribute
    split
    · rfl
    · rw [List.map_singleton, hplain _ _ (notMem_classValue (by decide) hamp)]
  have hdata : (dataAttribute r).map Attribute.decoded = dataAttribute r := by
    unfold dataAttribute
    cases hcomponent : r.component with
    | none => rfl
    | some component =>
      dsimp only
      split
      · rfl
      · rw [List.map_singleton, hplain _ _ (notMem_component hamp _ hcomponent)]
  have hown : ∀ entry, (ownAttribute Escape.attrValue entry).map Attribute.decoded =
      ownAttribute id entry := by
    rintro ⟨name, value⟩
    cases value with
    | text s => exact congrArg ([·]) (hescaped name s)
    | _ => rfl
  have hpayload : (payloadAttribute Escape.attrValue r).map Attribute.decoded =
      payloadAttribute id r := by
    unfold payloadAttribute
    cases askedPayload r with
    | none => rfl
    | some v => exact congrArg ([·]) (hescaped _ _)
  simp only [attributesOf, List.map_append, List.map_flatMap, hclass, hdata, hown, hpayload]

/-- The token of a record's opening tag that has these attributes. -/
def openingToken (r : Record) (attributes : List Attribute) : Token :=
  if askedTag r ∈ contentless then .empty (askedTag r) attributes
  else .opening (askedTag r) attributes

/-- The text of a record's opening tag is read as the tag and its attributes. -/
theorem scan_renderRecord (hname : Named r) (hquote : Spares '"' r) (rest : List Char) :
    scan .outside ((renderRecord r).toList ++ rest) =
      openingToken r (attributesOf Escape.attrValue r) ::
        if askedTag r ∈ contentless then scan .outside rest
        else scan .outside ((render r.content).toList ++
          '<' :: '/' :: ((askedTag r).toList ++ '>' :: rest)) := by
  have hlegible := legible_attributesOf hname hquote
  rw [renderRecord_asked, openingToken]
  by_cases hvoid : askedTag r ∈ contentless
  · rw [if_pos hvoid, if_pos hvoid, if_pos hvoid, ← scan_empty hname.tag hlegible]
    simp [toList_openingTag]
  · rw [if_neg hvoid, if_neg hvoid, if_neg hvoid, ← scan_opening hname.tag hlegible]
    simp [toList_openingTag]

/-- A record whose texts that are written as they are have neither double quotes nor ampersands is
read back with its tag and exactly the attributes that it asks for, with the texts that it asks for,
whatever its content is. -/
theorem tokensOf_record (hname : Named r) (hquote : Spares '"' r) (hamp : Spares '&' r) :
    (tokensOf (render (.record r))).head?.map Token.decoded =
      some (openingToken r (attributesOf id r)) := by
  have hscan := scan_renderRecord hname hquote []
  rw [List.append_nil] at hscan
  rw [render, tokensOf, hscan, List.head?_cons, Option.map_some, openingToken, openingToken,
    ← decoded_attributesOf hamp]
  split <;> rfl

/-- A card with a title that has quotes, an angle and an ampersand, and with an option. -/
def titledCard : Record :=
  { Record.blank with
    component := some "card"
    variant := some "wide"
    rendering := {
      tag := some "a"
      attrs := .ofList [("title", .text "\"5 > 4\" & more"), ("hidden", .flag), ("id", .null)]
      state := .ofList [("size", .text "large")]
      initOptions := some (.ofList [("label", .string "\"/>")]) } }

theorem tokensOf_titledCard :
    Named titledCard ∧ Spares '"' titledCard ∧ Spares '&' titledCard ∧
      (tokensOf (render (.record titledCard))).head?.map Token.decoded =
        some (openingToken titledCard (attributesOf id titledCard)) := by
  have hname : Named titledCard := by decide
  have hquote : Spares '"' titledCard := by decide
  have hamp : Spares '&' titledCard := by decide
  exact ⟨hname, hquote, hamp, tokensOf_record hname hquote hamp⟩

/-- A component whose name ends the quotes that it is written between. -/
def forgedCard : Record := { Record.blank with component := some "x\" onload=\"y" }

/-- The record asks for a class and its component's name as data; the reader finds two handlers for
an event as well, since class and component are written without escaping. -/
theorem tokensOf_forgedCard : Named forgedCard ∧
    attributesOf id forgedCard =
      [.quoted "class" "x\" onload=\"y", .quoted "data-block" "x\" onload=\"y"] ∧
    (tokensOf (render (.record forgedCard))).head?.map Token.decoded =
      some (.opening "div" [.quoted "class" "x", .quoted "onload" "y", .quoted "data-block" "x",
        .quoted "onload" "y"]) :=
  ⟨by decide, by decide, by decide⟩

end Markup

end ComponentTree
