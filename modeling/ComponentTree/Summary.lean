import ComponentTree.Summary.Shapeless

/-!
One-line summaries of stores, for people who look into them.

Texts stand between double quotes, lists between brackets and maps between braces.
-/

namespace ComponentTree.Summary

/-- A character of a quoted text. Quotes, backslashes and characters that cannot be told by their
shape are escaped: a few with a letter, the others with their code point in hexadecimal digits. -/
def quotedChar (c : Char) : List Char :=
  if c = '"' || c = '\\' then ['\\', c]
  else if c = '\n' then ['\\', 'n']
  else if c = '\r' then ['\\', 'r']
  else if c = '\t' then ['\\', 't']
  else if c.toNat = 0 then ['\\', '0']
  else if isShapeless c then
    ['\\', 'u', '\x7b'] ++ Nat.toDigits 16 c.toNat ++ ['\x7d']
  else [c]

/-- A text between quotes. -/
def quoted (s : String) : String := "\"" ++ String.ofList (s.toList.flatMap quotedChar) ++ "\""

/-- Items between brackets. -/
def list (items : List String) : String := "[" ++ String.intercalate ", " items ++ "]"

/-- Named items between braces. -/
def map (entries : List (String × String)) : String :=
  "\x7b" ++ String.intercalate ", " (entries.map fun e => quoted e.1 ++ ": " ++ e.2) ++ "\x7d"

/-- A store with its fields. -/
def store (name : String) (fields : List (String × String)) : String :=
  name ++ " \x7b " ++ String.intercalate ", " (fields.map fun f => f.1 ++ ": " ++ f.2) ++ " \x7d"

end ComponentTree.Summary
