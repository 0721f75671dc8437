import UtilityCss.Script.Accessor
import UtilityCss.Script.Plan
import UtilityCss.Value.Reference

/-!
# The lines of a runtime script

A runtime script is written line by line from its plan. It keeps one custom property for every
geometry property of the plan, updated when the document is ready and after it was resized, and it
copies the classes of elements onto those that ask for them. Lines are data until they are
rendered: an indentation in steps of two spaces and a text, which may be empty.

Every line that is neither empty nor a comment ends in a semicolon or in a brace. This is what
allows a minified script to join them.
-/

namespace UtilityCss.Script

/-- A line of a script. -/
structure Line where
  /-- The indentation, in steps. -/
  indent : Nat
  /-- The text; empty for a blank line. -/
  text : String
deriving DecidableEq, Repr

/-- The global object that the functions of the script are put into. -/
def globalName : String := "HUHM"

/-- How long the script waits after the last change of the window size, in milliseconds. -/
def resizeDelay : Nat := 100

/-- A blank line. -/
def blankLine : Line := ⟨0, ""⟩

/-- An id with every character that cannot stand in a variable name replaced by an underscore. -/
def identifier (id : String) : String :=
  String.ofList (id.toList.map fun c => if c.isAlphanum || c == '_' then c else '_')

/-- The comment at the head of a script. -/
def headerLines (timestamp : String) : List Line :=
  [⟨0, "/**"⟩,
    ⟨0, " * " ++ globalName ++ " runtime: CSS variables bound to element geometry"⟩,
    ⟨0, " * Generated: " ++ timestamp⟩,
    ⟨0, " */"⟩,
    blankLine]

/-- The line that sets the custom property of a reference. -/
def propertyLine (element holder property : String) : Line :=
  ⟨3, "root.style.setProperty('" ++ Reference.variableName ⟨element, property⟩ ++ "', "
    ++ (Accessor.ofProperty property).expression holder ++ ");"⟩

/-- The lines that keep the geometry of one element up to date. -/
def bindingLines (b : Binding) : List Line :=
  let holder := "el_" ++ identifier b.element
  [blankLine,
    ⟨2, "// #" ++ b.element⟩,
    ⟨2, "var " ++ holder ++ " = document.getElementById('" ++ b.element ++ "');"⟩,
    ⟨2, "if (" ++ holder ++ ") \x7b"⟩]
    ++ b.properties.map (propertyLine b.element holder)
    ++ [⟨2, "\x7d else \x7b"⟩,
      ⟨3, "console.warn('[" ++ globalName ++ "] Element not found: #" ++ b.element ++ "');"⟩,
      ⟨2, "\x7d"⟩]

/-- The lines that copy the classes of one element. -/
def classCopyLines (id : String) : List Line :=
  let source := "source_" ++ identifier id
  let classes := "classes_" ++ identifier id
  let marker := "#" ++ id ++ ".classes"
  [blankLine,
    ⟨2, "// " ++ marker⟩,
    ⟨2, "var " ++ source ++ " = document.getElementById('" ++ id ++ "');"⟩,
    ⟨2, "if (" ++ source ++ ") \x7b"⟩,
    ⟨3, "var " ++ classes ++ " = Array.from(" ++ source ++ ".classList);"⟩,
    ⟨3, "document.querySelectorAll('[class*=\x22" ++ marker
      ++ "\x22]').forEach(function(target) \x7b"⟩,
    ⟨4, "target.className = target.className.split('" ++ marker
      ++ "').join(' ').replace(/\\s+/g, ' ').trim();"⟩,
    ⟨4, classes ++ ".forEach(function(cls) \x7b"⟩,
    ⟨5, "if (!target.classList.contains(cls)) \x7b"⟩,
    ⟨6, "target.classList.add(cls);"⟩,
    ⟨5, "\x7d"⟩,
    ⟨4, "\x7d);"⟩,
    ⟨3, "\x7d);"⟩,
    ⟨2, "\x7d else \x7b"⟩,
    ⟨3, "console.warn('[" ++ globalName ++ "] Source element not found for class copy: #" ++ id
      ++ "');"⟩,
    ⟨2, "\x7d"⟩]

/-- The lines that start the script and put its functions into the global object. -/
def startLines : List Line :=
  [⟨1, "function init() \x7b"⟩,
    ⟨2, "updateVariables();"⟩,
    ⟨2, "copyClasses();"⟩,
    ⟨1, "\x7d"⟩,
    blankLine,
    ⟨1, "if (document.readyState === 'loading') \x7b"⟩,
    ⟨2, "document.addEventListener('DOMContentLoaded', init);"⟩,
    ⟨1, "\x7d else \x7b"⟩,
    ⟨2, "init();"⟩,
    ⟨1, "\x7d"⟩,
    blankLine,
    ⟨1, "var resizeTimer;"⟩,
    ⟨1, "window.addEventListener('resize', function() \x7b"⟩,
    ⟨2, "clearTimeout(resizeTimer);"⟩,
    ⟨2, "resizeTimer = setTimeout(updateVariables, " ++ toString resizeDelay ++ ");"⟩,
    ⟨1, "\x7d);"⟩,
    blankLine,
    ⟨1, "window." ++ globalName ++ " = window." ++ globalName ++ " || \x7b\x7d;"⟩,
    ⟨1, "window." ++ globalName ++ ".updateVariables = updateVariables;"⟩,
    ⟨1, "window." ++ globalName ++ ".copyClasses = copyClasses;"⟩]

/-- The lines of a script without its header. -/
def bodyLines (p : Plan) : List Line :=
  [⟨0, "(function() \x7b"⟩, ⟨1, "'use strict';"⟩, blankLine, ⟨1, "function updateVariables() \x7b"⟩]
    ++ (if p.geometry.isEmpty then [] else [⟨2, "var root = document.documentElement;"⟩])
    ++ p.geometry.flatMap bindingLines
    ++ [⟨1, "\x7d"⟩, blankLine, ⟨1, "function copyClasses() \x7b"⟩]
    ++ p.classCopies.flatMap classCopyLines
    ++ [⟨1, "\x7d"⟩, blankLine]
    ++ startLines
    ++ [⟨0, "\x7d)();"⟩]

/-- **The lines of the script that carries out a plan**, with a header comment if there is a
timestamp. A plan with nothing to do has no lines. -/
def scriptLines (p : Plan) (timestamp : Option String) : List Line :=
  if p.isEmpty then [] else (timestamp.map headerLines).getD [] ++ bodyLines p

/-- The text of a line with its line end. A blank line is not indented. -/
def Line.render (l : Line) : String :=
  if l.text.isEmpty then "\n"
  else String.join (List.replicate l.indent "  ") ++ l.text ++ "\n"

/-- **The text of the script that carries out a plan.** -/
def text (p : Plan) (timestamp : Option String) : String :=
  String.join ((scriptLines p timestamp).map Line.render)

end UtilityCss.Script
