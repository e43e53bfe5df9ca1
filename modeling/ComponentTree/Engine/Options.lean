/-!
What can be set about an expansion.
-/

namespace ComponentTree

/-- The options of an engine. -/
structure Options where
  /-- Whether an expansion fails when it keeps coming back to one place. -/
  divergenceGuard : Bool := false
  /-- How often the rules may go through one place. -/
  divergenceLimit : UInt32 := 100
  /-- The text in front of generated identifiers. -/
  idPrefix : String := "uniq"
deriving DecidableEq, Repr

/-- Whether the guard refuses a place that the rules go through for the `count`-th time. -/
def Options.refuses (options : Options) (count : Nat) : Bool :=
  options.divergenceGuard && options.divergenceLimit.toNat < count

end ComponentTree
