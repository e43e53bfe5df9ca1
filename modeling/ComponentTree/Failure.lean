import ComponentTree.Library.Keysets

/-!
Why an expansion fails, and the message for it.
-/

namespace ComponentTree

/-- The cause of a failed expansion. -/
inductive Failure where
  /-- The rules went through one place more often than the limit allows. -/
  | divergence (selector : String) (limit : UInt32)
  /-- A rule looked up a string that is not there. -/
  | missing (string : Keysets.Missing)
  /-- A rule gave up. -/
  | rule (selector message : String)
deriving DecidableEq, Repr

/-- The message for a failed expansion. -/
def Failure.message : Failure → String
  | .divergence selector limit =>
    "Infinite loop detected at \"" ++ selector ++ "\" (more than " ++ toString limit.toNat ++
      " rewrites)"
  | .missing string => string.message
  | .rule selector message => "Rule for \"" ++ selector ++ "\" failed: " ++ message

end ComponentTree
