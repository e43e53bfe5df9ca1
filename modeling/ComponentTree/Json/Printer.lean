import ComponentTree.Json.Literal

/-!
Compact JSON text.

There are no spaces. In strings the quote, the backslash and the control characters below the
space are escaped, with a short escape where JSON has one; nothing else is.
-/

namespace ComponentTree

namespace Json

/-- The hexadecimal digit of a number below sixteen. -/
def hexDigit (n : Nat) : Char := Nat.digitChar n

/-- A character inside a JSON string. -/
def escapedChar (c : Char) : List Char :=
  if c = '"' then ['\\', '"']
  else if c = '\\' then ['\\', '\\']
  else if c.toNat = 8 then ['\\', 'b']
  else if c.toNat = 12 then ['\\', 'f']
  else if c = '\n' then ['\\', 'n']
  else if c = '\r' then ['\\', 'r']
  else if c = '\t' then ['\\', 't']
  else if c.toNat < 32 then
    ['\\', 'u', '0', '0', hexDigit (c.toNat / 16), hexDigit (c.toNat % 16)]
  else [c]

/-- A string with its quotes. -/
def quoted (s : String) : List Char := '"' :: (s.toList.flatMap escapedChar ++ ['"'])

variable {ν : Type}

mutual

/-- The compact text of a value whose numbers are written by `num`. -/
def chars (num : ν → List Char) : Json ν → List Char
  | .null => ['n', 'u', 'l', 'l']
  | .bool true => ['t', 'r', 'u', 'e']
  | .bool false => ['f', 'a', 'l', 's', 'e']
  | .number n => num n
  | .string s => quoted s
  | .array items => '[' :: itemChars num items
  | .object members => '{' :: memberChars num members

/-- The items of an array up to its closing bracket. -/
def itemChars (num : ν → List Char) : List (Json ν) → List Char
  | [] => [']']
  | x :: xs => chars num x ++ moreItemChars num xs

/-- Further items of an array, each after a comma. -/
def moreItemChars (num : ν → List Char) : List (Json ν) → List Char
  | [] => [']']
  | x :: xs => ',' :: (chars num x ++ moreItemChars num xs)

/-- The members of an object up to its closing brace. -/
def memberChars (num : ν → List Char) : List (String × Json ν) → List Char
  | [] => ['}']
  | (name, x) :: xs => quoted name ++ ':' :: (chars num x ++ moreMemberChars num xs)

/-- Further members of an object, each after a comma. -/
def moreMemberChars (num : ν → List Char) : List (String × Json ν) → List Char
  | [] => ['}']
  | (name, x) :: xs => ',' :: (quoted name ++ ':' :: (chars num x ++ moreMemberChars num xs))

end

end Json

/-- The compact JSON text of literal data. -/
def Literal.print (v : Literal) : String :=
  String.ofList (Json.chars (fun n => n.text.toList) v)

/-- The text that stands for a literal value inside a longer text: a string as it is, nothing for
`null`, and the JSON text of any other value. -/
def Literal.bareText : Literal → String
  | .string s => s
  | .null => ""
  | v => Literal.print v

end ComponentTree
