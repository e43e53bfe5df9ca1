import ComponentTree.Rule.Program
import ComponentTree.Rule.Selector

/-!
The rules of an engine, by selector.

A rule is stored under every selector it was registered for, in front of the rules that were there
before. A record is matched by the first of its selectors that has rules; rules under less specific
selectors are then not looked at.
-/

namespace ComponentTree

/-- Rules are numbered in the order of their registration. -/
abbrev RuleId := Nat

/-- A rule with the selectors it was registered for. Its body answers with a tree that replaces the
record, or with nothing to keep it. -/
structure Rule (σ : Type) where
  selectors : List Selector
  body : RuleM σ (Option Node)

/-- Rules by number and by selector, and the variants of components that are not given one. -/
structure Rulebook (σ : Type) where
  rules : List (Rule σ) := []
  /-- The rules of each selector, the newest first. -/
  bySelector : OrderedMap Selector (List RuleId) := .empty
  defaultVariants : OrderedMap String String := .empty

namespace Rulebook

variable {σ : Type}

/-- The rules stored under a selector, the newest first. -/
def stored (b : Rulebook σ) (s : Selector) : List RuleId := (b.bySelector.get? s).getD []

/-- Stores a rule in front of those of a selector, unless it is there already. -/
def store (id : RuleId) (m : OrderedMap Selector (List RuleId)) (s : Selector) :
    OrderedMap Selector (List RuleId) :=
  let ids := (m.get? s).getD []
  if ids.contains id then m else m.insert s (id :: ids)

/-- Registers a rule for some selectors; gives its number. -/
def register (b : Rulebook σ) (selectors : List Selector) (body : RuleM σ (Option Node)) :
    Rulebook σ × RuleId :=
  let id := b.rules.length
  ({ b with
      rules := b.rules ++ [⟨selectors, body⟩]
      bySelector := selectors.foldl (store id) b.bySelector }, id)

/-- Registers a rule for all that some selector texts can stand for; gives its number. -/
def registerTexts (b : Rulebook σ) (texts : List String) (body : RuleM σ (Option Node)) :
    Rulebook σ × RuleId :=
  b.register (texts.flatMap Selector.readings) body

/-- The rules of exactly this selector, if it has any. -/
def rules? (b : Rulebook σ) (s : Selector) : Option (List RuleId) :=
  match b.stored s with
  | [] => none
  | ids => some ids

/-- The first selector of a record that has rules, with its rules. -/
def resolve (b : Rulebook σ) (component : String) (variant part : Option String) :
    Option (Selector × List RuleId) :=
  (Selector.forRecord component variant part).findSome? fun s =>
    (b.rules? s).map fun ids => (s, ids)

/-- The body of a rule. -/
def body? (b : Rulebook σ) (id : RuleId) : Option (RuleM σ (Option Node)) :=
  b.rules[id]?.map (·.body)

/-- The selectors that a rule was registered for, repeats included. -/
def selectors? (b : Rulebook σ) (id : RuleId) : Option (List Selector) :=
  b.rules[id]?.map (·.selectors)

/-- Sets the variant of a component's records that have none. -/
def setDefaultVariant (b : Rulebook σ) (component variant : String) : Rulebook σ :=
  { b with defaultVariants := b.defaultVariants.insert component variant }

/-- The variant of a component's records that have none. -/
def defaultVariant? (b : Rulebook σ) (component : String) : Option String :=
  b.defaultVariants.get? component

/-- The number of rules. -/
def size (b : Rulebook σ) : Nat := b.rules.length

/-- The name of a rule in answers. -/
def idText (id : RuleId) : String := "rule" ++ toString id

/-- The rulebook in one line, the selectors sorted by their texts character by character. -/
def summary (b : Rulebook σ) : String :=
  let texts := (b.bySelector.keys.map Selector.text).mergeSort fun s t => decide (s ≤ t)
  Summary.store "RuleRegistry"
    [("rules", toString b.size),
      ("selectors", Summary.list (texts.map Summary.quoted)),
      ("default_variants",
        Summary.map (b.defaultVariants.entries.map fun e => (e.1, Summary.quoted e.2)))]

end Rulebook

end ComponentTree
