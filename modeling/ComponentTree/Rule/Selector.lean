/-!
Selectors: which records a rule is for.

A selector names a component, what it asks of the variant, and possibly a part. Its text is
`component[_variant][*][__part]`. Underscores also occur inside names, so one text can stand for
several selectors: a rule is stored under every one of them. A record in turn is matched by at most
three selectors, the most specific first.
-/

namespace ComponentTree

/-- What a selector asks of the variant. -/
inductive VariantPattern where
  /-- The record has no variant. -/
  | none
  /-- The record has exactly this variant. -/
  | exact (variant : String)
  /-- The record's variant has this text in front of its first dash. -/
  | family (name : String)
  /-- Any variant, or none. -/
  | any
deriving DecidableEq, Repr

/-- A selector. -/
structure Selector where
  component : String
  variant : VariantPattern
  part : Option String
deriving DecidableEq, Repr

namespace Selector

/-- Cuts a text at its first double underscore. -/
def cutPart : List Char → List Char × Option (List Char)
  | [] => ([], none)
  | '_' :: '_' :: rest => ([], some rest)
  | c :: rest =>
    let (head, part) := cutPart rest
    (c :: head, part)

/-- The text without the star at its end, if it has one. -/
def dropStar? (cs : List Char) : Option (List Char) :=
  if cs.getLast? = some '*' then some cs.dropLast else none

/-- Cuts a text at its first underscore. -/
def cutVariant : List Char → List Char × Option (List Char)
  | [] => ([], none)
  | c :: rest =>
    if c = '_' then ([], some rest)
    else
      let (component, variant) := cutVariant rest
      (c :: component, variant)

/-- Every way to cut a text at an underscore, from left to right. -/
def cuts : List Char → List (List Char × List Char)
  | [] => []
  | c :: rest =>
    (if c = '_' then [([], rest)] else []) ++ (cuts rest).map fun p => (c :: p.1, p.2)

/-- The pattern for a variant text, which a star makes a family. -/
def namedPattern (star : Bool) (variant : List Char) : VariantPattern :=
  if star then .family (String.ofList variant) else .exact (String.ofList variant)

/-- The pattern for a missing variant text, which a star makes any variant. -/
def unnamedPattern (star : Bool) : VariantPattern := if star then .any else .none

/-- The pieces of a selector text: the names in front, whether a star follows them, and the part. -/
def pieces (text : String) : List Char × Bool × Option String :=
  let (head, part) := cutPart text.toList
  let part := part.map String.ofList
  match dropStar? head with
  | some stem => (stem, true, part)
  | none => (head, false, part)

/-- The selector that a text stands for when its first underscore ends the component. -/
def ofText (text : String) : Selector :=
  let (stem, star, part) := pieces text
  match cutVariant stem with
  | (component, some variant) => ⟨String.ofList component, namedPattern star variant, part⟩
  | (component, none) => ⟨String.ofList component, unnamedPattern star, part⟩

/-- Every selector that a text can stand for: each underscore with text on both sides may end the
component, or none does. -/
def readings (text : String) : List Selector :=
  let (stem, star, part) := pieces text
  let split := (cuts stem).filter fun p => !p.1.isEmpty && !p.2.isEmpty
  split.map (fun p => ⟨String.ofList p.1, namedPattern star p.2, part⟩) ++
    [⟨String.ofList stem, unnamedPattern star, part⟩]

/-- The family of a variant: its text in front of the first dash. -/
def familyOf (variant : String) : String :=
  String.ofList (variant.toList.takeWhile (· ≠ '-'))

/-- The selectors that match a record, the most specific first. -/
def forRecord (component : String) (variant part : Option String) : List Selector :=
  (match variant with
    | some v => [⟨component, .exact v, part⟩, ⟨component, .family (familyOf v), part⟩]
    | none => [⟨component, .none, part⟩]) ++
  [⟨component, .any, part⟩]

/-- The text of what is asked of the variant. -/
def patternText : VariantPattern → String
  | .none => ""
  | .exact v => "_" ++ v
  | .family f => "_" ++ f ++ "*"
  | .any => "*"

/-- The text of the part with its separator. -/
def partText : Option String → String
  | some p => "__" ++ p
  | none => ""

/-- The text of a selector. -/
def text (s : Selector) : String := s.component ++ patternText s.variant ++ partText s.part

/-- The name of a record in messages: its component and its part. -/
def label (component : String) (part : Option String) : String := component ++ partText part

end Selector

end ComponentTree
