/-!
# About the compiler
-/

namespace UtilityCss.Info

/-- The name of the command. -/
def name : String := "huhm"

/-- The version of the compiler. -/
def version : String := "0.1.0"

/-- What the compiler does, in a line. -/
def description : String :=
  "HUHM - compile bracket/pipe utility classes in markup into CSS"

/-- The kinds of tokens and inputs that the compiler understands. -/
def features : List String :=
  ["literals", "responsive", "media-queries", "calc", "clamp", "rgb", "element-references",
    "class-copy", "theme"]

end UtilityCss.Info
