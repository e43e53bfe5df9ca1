import ComponentTree.OrderedMap

/-!
JSON values over any kind of number.

The members of an object are kept as written, in order; a value that was read never has a member
name twice, because a repeated name keeps its first place and takes its last value. Equality does
not look at the order of members.
-/

namespace ComponentTree

/-- A JSON value whose numbers are of type `ν`. -/
inductive Json (ν : Type) where
  | null
  | bool (b : Bool)
  | number (n : ν)
  | string (s : String)
  | array (items : List (Json ν))
  | object (members : List (String × Json ν))

namespace Json

variable {ν : Type}

instance : Inhabited (Json ν) := ⟨.null⟩

/-- The object that arises by writing the members one after the other. -/
def ofMembers (members : List (String × Json ν)) : Json ν :=
  .object (OrderedMap.ofList members).entries

/-- The member of an object with the given name; nothing for any other value. -/
def member? (name : String) : Json ν → Option (Json ν)
  | .object members => OrderedMap.find name members
  | _ => none

/-- The text of a string value. -/
def string? : Json ν → Option String
  | .string s => some s
  | _ => none

mutual

/-- Equality up to the order of members, with numbers compared by `eq`. -/
def sameBy (eq : ν → ν → Bool) : Json ν → Json ν → Bool
  | .null, .null => true
  | .bool a, .bool b => a == b
  | .number m, .number n => eq m n
  | .string s, .string t => s == t
  | .array xs, .array ys => sameItems eq xs ys
  | .object xs, .object ys => xs.length == ys.length && sameMembers eq xs ys
  | _, _ => false

/-- Pointwise equality of two lists of values. -/
def sameItems (eq : ν → ν → Bool) : List (Json ν) → List (Json ν) → Bool
  | [], [] => true
  | x :: xs, y :: ys => sameBy eq x y && sameItems eq xs ys
  | _, _ => false

/-- Whether every member of the first list has an equal one of its name in the second. -/
def sameMembers (eq : ν → ν → Bool) :
    List (String × Json ν) → List (String × Json ν) → Bool
  | [], _ => true
  | (name, x) :: xs, ys =>
    (match OrderedMap.find name ys with
      | some y => sameBy eq x y
      | none => false) && sameMembers eq xs ys

end

end Json

end ComponentTree
