import UtilityCss.FirstSeen
import UtilityCss.Project

/-!
# What the command line shows

The texts that the command line prints. The time that a build took is known only after the build, so
the texts that show it take it as an argument.
-/

namespace UtilityCss.CommandLine

/-- A text made of lines. -/
def linesText (lines : List String) : String := String.join (lines.map (· ++ "\n"))

/-- The tokens that problems are about, each once. -/
def warnedTokens (diagnostics : List Diagnostic) : List String :=
  (FirstSeen.ofList (diagnostics.filterMap Diagnostic.token?)).toList

/-- A truth value as a word. -/
def wordOf (b : Bool) : String := if b then "true" else "false"

/-- What is shown after a configuration file was made. -/
def createdLines (path : Path) : List String :=
  ["✅ Created " ++ path.text, "", "Next steps:",
    "   add utility classes such as p[1rem] or w[50%:mobile] to your markup", "   huhm build"]

/-- What is shown before a build. -/
def startLines (root : Path) : List String := ["🔨 Building " ++ root.text]

/-- What is shown of the problems of a build. -/
def warningLines (diagnostics : List Diagnostic) : List String :=
  if diagnostics.isEmpty then []
  else
    ("   ⚠️  " ++ toString diagnostics.length ++ " warning(s)") ::
      (if (warnedTokens diagnostics).isEmpty then []
        else ["      in " ++ " ".intercalate (warnedTokens diagnostics)])

/-- **What is shown after a build.** -/
def summaryLines (report : BuildReport) (milliseconds : Nat) : List String :=
  ["✅ Build successful!",
    "   CSS: " ++ report.cssPath.text ++ " (" ++ toString report.stats.cssSize ++ " bytes)"]
    ++ (report.scriptPath.map fun path =>
        "   Script: " ++ path.text ++ " (" ++ toString report.stats.scriptSize ++ " bytes)").toList
    ++ ["   " ++ toString report.stats.tokenCount ++ " tokens, " ++ toString report.stats.ruleCount
        ++ " rules, " ++ toString milliseconds ++ "ms"]
    ++ warningLines report.diagnostics

/-- The figures of a build, as lines for people. -/
def statsLines (stats : Stats) (milliseconds : Nat) : List String :=
  ["",
    "📊 Detailed Compilation Statistics:",
    "   Files scanned: " ++ toString stats.filesScanned,
    "   Unique tokens: " ++ toString stats.tokenCount,
    "   Rules: " ++ toString stats.ruleCount,
    "   CSS size: " ++ toString stats.cssSize ++ " bytes",
    "   Script size: " ++ toString stats.scriptSize ++ " bytes",
    "   Minified: " ++ wordOf stats.minified,
    "   Compile time: " ++ toString milliseconds ++ "ms",
    "",
    "   Runtime support:",
    "     Element references: " ++ toString stats.referenceCount,
    "     Class copies: " ++ toString stats.classCopyCount,
    "     Warnings: " ++ toString stats.diagnosticCount]

/-- The figures of a build, by name. -/
def statsFields (stats : Stats) (milliseconds : Nat) : List (String × String) :=
  [("files_scanned", toString stats.filesScanned),
    ("token_count", toString stats.tokenCount),
    ("rule_count", toString stats.ruleCount),
    ("element_reference_count", toString stats.referenceCount),
    ("class_copy_count", toString stats.classCopyCount),
    ("diagnostic_count", toString stats.diagnosticCount),
    ("css_size", toString stats.cssSize),
    ("script_size", toString stats.scriptSize),
    ("minified", wordOf stats.minified),
    ("compile_time_ms", toString milliseconds)]

/-- The figures of a build, as an object for programs. -/
def statsObject (stats : Stats) (milliseconds : Nat) : String :=
  let fields := (statsFields stats milliseconds).map fun (name, value) =>
    "  \x22" ++ name ++ "\x22: " ++ value
  "\x7b\n" ++ ",\n".intercalate fields ++ "\n\x7d"

/-- What is shown when there is no subcommand. -/
def nothingLines : List String :=
  ["No subcommand specified. Use --help for usage information."]

end UtilityCss.CommandLine
