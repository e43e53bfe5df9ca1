/-!
Escaping for markup.

Text content escapes the six characters that could open a tag, an entity or a quoted value; a
double-quoted attribute value needs only the ampersand and the double quote.
-/

namespace ComponentTree.Escape

/-- A character inside text content. -/
def textChar (c : Char) : List Char :=
  if c = '&' then ['&', 'a', 'm', 'p', ';']
  else if c = '<' then ['&', 'l', 't', ';']
  else if c = '>' then ['&', 'g', 't', ';']
  else if c = '"' then ['&', 'q', 'u', 'o', 't', ';']
  else if c = '\'' then ['&', '#', 'x', '2', '7', ';']
  else if c = '/' then ['&', '#', 'x', '2', 'F', ';']
  else [c]

/-- A text for use as content. -/
def text (s : String) : String := String.ofList (s.toList.flatMap textChar)

/-- Every occurrence of a character replaced by a text. -/
def replaceChar (c : Char) (new : List Char) (s : List Char) : List Char :=
  s.flatMap fun d => if d = c then new else [d]

/-- A text for use inside a double-quoted attribute. A text without ampersand and quote is left
alone; otherwise the ampersands go first, so that those of the quotes' entities stay. -/
def attrValue (s : String) : String :=
  if s.toList.any fun c => c = '&' || c = '"' then
    String.ofList
      (replaceChar '"' ['&', 'q', 'u', 'o', 't', ';']
        (replaceChar '&' ['&', 'a', 'm', 'p', ';'] s.toList))
  else s

end ComponentTree.Escape
