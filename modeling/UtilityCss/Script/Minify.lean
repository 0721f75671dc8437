import UtilityCss.Text.Comment
import UtilityCss.Text.Find
import UtilityCss.Text.Lines

/-!
# Minified scripts

A script is minified line by line: block comments go first, then every line is trimmed, blank lines
and line comments are dropped, and the rest is joined without anything in between. This is right
for scripts whose lines each end a statement or open or close a block.
-/

namespace UtilityCss.Script

open UtilityCss.Text

/-- Whether a trimmed line stays in a minified script. -/
def keepsLine (line : List Char) : Bool :=
  !line.isEmpty && (strip? ['/', '/'] line).isNone

/-- The characters of a minified script. -/
def minifyChars (script : List Char) : List Char :=
  (((lines (withoutComments script)).map trim).filter keepsLine).flatten

/-- **Minify a script.** -/
def minify (script : String) : String := String.ofList (minifyChars script.toList)

end UtilityCss.Script
