import ComponentTree.Rule.Rulebook
import ComponentTree.Engine.Options

/-!
Engines: rules, options, shared values and the counter of identifiers.

An engine also settles who owns a record. A part belongs to the component around it unless it names
another one; with the component it takes over the variant. A record that switches to another
component falls back to that component's default variant, and plain markup hands down what it was
given.
-/

namespace ComponentTree

/-- The component and variant that a record has or hands down. -/
structure Owner where
  component : Option String := none
  variant : Option String := none
deriving DecidableEq, Repr

/-- An engine whose rules share a memory of type `σ`. -/
structure Engine (σ : Type) where
  rulebook : Rulebook σ := {}
  options : Options := {}
  library : Library := {}
  /-- The number of the next identifier; it lives as long as the engine. -/
  nextId : UInt64 := 0

namespace Engine

variable {σ : Type}

/-- An engine without rules that has the given options. -/
def ofOptions (options : Options) : Engine σ := { options }

/-- The default variant of a component, if there is a component. -/
def defaultVariantOf (e : Engine σ) (component : Option String) : Option String :=
  component.bind e.rulebook.defaultVariant?

/-- Whether a record names a component other than the one around it. -/
def switchesComponent (own inherited : Option String) : Bool :=
  own.isSome && own ≠ inherited

/-- The record with its component and variant filled in, and the owner it hands down. -/
def resolveOwner (e : Engine σ) (r : Record) (inherited : Owner) : Record × Owner :=
  if r.part.isSome && !switchesComponent r.component inherited.component then
    let component := r.component.or inherited.component
    let variant := (r.variant.or inherited.variant).or (e.defaultVariantOf component)
    ({ r with component, variant }, ⟨component, variant⟩)
  else if r.component.isSome then
    let variant := r.variant.or (e.defaultVariantOf r.component)
    ({ r with variant }, ⟨r.component, variant⟩)
  else (r, inherited)

/-- Registers a rule for some selectors; gives its number. -/
def register (e : Engine σ) (selectors : List Selector) (body : RuleM σ (Option Node)) :
    Engine σ × RuleId :=
  let (rulebook, id) := e.rulebook.register selectors body
  ({ e with rulebook }, id)

/-- Registers a rule for all that some selector texts can stand for; gives its number. -/
def registerTexts (e : Engine σ) (texts : List String) (body : RuleM σ (Option Node)) :
    Engine σ × RuleId :=
  let (rulebook, id) := e.rulebook.registerTexts texts body
  ({ e with rulebook }, id)

/-- Sets the variant of a component's records that have none. -/
def setDefaultVariant (e : Engine σ) (component variant : String) : Engine σ :=
  { e with rulebook := e.rulebook.setDefaultVariant component variant }

/-- Replaces the options. -/
def setOptions (e : Engine σ) (options : Options) : Engine σ := { e with options }

/-- Turns the divergence guard on or off. -/
def setGuard (e : Engine σ) (on : Bool) : Engine σ :=
  { e with options := { e.options with divergenceGuard := on } }

/-- Replaces the shared values. -/
def setLibrary (e : Engine σ) (library : Library) : Engine σ := { e with library }

end Engine

end ComponentTree
