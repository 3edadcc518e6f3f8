/-! Lines of a text. A newline ends a line, and a carriage return right before it belongs to the end
of the line, not to its content. -/
namespace RegionTree.Lines

/-- The content of a line that a newline has ended; `back` holds its characters in reverse. -/
def ended : List Char → List Char
  | '\r' :: back => back.reverse
  | back => back.reverse

/-- The lines of a text; `back` holds the characters of the line read so far in reverse. -/
def split (back : List Char) : List Char → List (List Char)
  | [] => if back.isEmpty then [] else [back.reverse]
  | '\n' :: rest => ended back :: split [] rest
  | c :: rest => split (c :: back) rest

/-- The lines of a text. What follows the last newline is a line unless it is empty. -/
def ofString (text : String) : List String := (split [] text.toList).map String.ofList

end RegionTree.Lines
