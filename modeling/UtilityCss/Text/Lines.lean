import UtilityCss.Text.Cut

/-!
# Lines

A line ends at a line feed, and a carriage return right before the line feed belongs to the line
end as well. A carriage return anywhere else is an ordinary character. A text that ends in a line
feed has no empty line after it.
-/

namespace UtilityCss.Text

/-- Drop one carriage return at the end of a line. -/
def dropReturn (line : List Char) : List Char :=
  if line.getLast? = some '\r' then line.dropLast else line

/-- **The lines of a text.** Every line but an unfinished last one loses a carriage return at its
end. -/
def lines (text : List Char) : List (List Char) :=
  let bodies := cutAt (· == '\n') text
  let ended := bodies.dropLast.map dropReturn
  match bodies.getLast? with
  | none => ended
  | some [] => ended
  | some line => ended ++ [line]

end UtilityCss.Text
