import UtilityCss.Markup.ClassCopy
import UtilityCss.Markup.Element
import UtilityCss.Options
import UtilityCss.Registry
import UtilityCss.Script.Lines
import UtilityCss.Script.Minify
import UtilityCss.Sheet.Basic
import UtilityCss.Sheet.Minify
import UtilityCss.Token.Vocabulary

/-!
# Compilation sessions

A session gathers tokens from source texts and then renders all of them at once. It holds the
distinct tokens, the references that were registered, the elements whose classes are copied, the
problems, and the number of texts. Gathering adds to the session (`scan`, `addClasses`). Finishing
a pass adds to it too: reading a token registers the references that it replaces and reports the
problems that it finds, and the style sheet grows along with them (`readToken`). What is rendered is
what the session holds when all tokens have been read. Then it is reset for the next pass
(`finish`). A run resets the session first and scans its texts into what is left (`runFrom`).

`compile` and `run` are the outputs alone, `run` on a session at its start.

In a source text, a class attribute may ask for the classes of another element of the same text.
The tokens of that element then come right before the tokens of the attribute itself.
-/

namespace UtilityCss

open UtilityCss.Text

/-! ### Token sets -/

/-- The distinct tokens that a session has met, in first-seen order. -/
abbrev TokenSet := FirstSeen String

/-- A token without the blanks around it. -/
def trimToken (token : String) : String := String.ofList (trim token.toList)

/-- Whether adding a token would change a set: it is not blank and not there yet. -/
def TokenSet.accepts (s : TokenSet) (token : String) : Bool :=
  !(trimToken token).isEmpty && !s.toList.contains (trimToken token)

/-- **Add a token**, trimmed; a blank one is ignored. -/
def TokenSet.add (s : TokenSet) (token : String) : TokenSet :=
  if (trimToken token).isEmpty then s else s.insert (trimToken token)

/-- Add tokens one after another. -/
def TokenSet.addAll (s : TokenSet) (tokens : List String) : TokenSet :=
  tokens.foldl TokenSet.add s

/-! ### Output -/

/-- The figures of a compilation. -/
structure Stats where
  /-- The number of source texts. -/
  filesScanned : Nat
  /-- The number of distinct tokens. -/
  tokenCount : Nat
  /-- The number of rules, under a media condition or not. -/
  ruleCount : Nat
  /-- The number of distinct references to element geometry. -/
  referenceCount : Nat
  /-- The number of elements whose classes are copied. -/
  classCopyCount : Nat
  /-- The number of problems. -/
  diagnosticCount : Nat
  /-- The size of the style sheet in bytes. -/
  cssSize : Nat
  /-- The size of the runtime script in bytes. -/
  scriptSize : Nat
  /-- Whether the outputs are minified. -/
  minified : Bool
deriving DecidableEq, Repr

/-- What a compilation produces. -/
structure Output where
  /-- The style sheet. -/
  css : String
  /-- The runtime script; empty if none is needed. -/
  script : String
  /-- The problems, those found while gathering first. -/
  diagnostics : List Diagnostic
  /-- The figures. -/
  stats : Stats
deriving DecidableEq, Repr

/-- Whether a runtime script is needed. -/
def Output.hasScript (o : Output) : Bool := !o.script.isEmpty

/-! ### Sessions -/

/-- What has been gathered so far. -/
structure Session where
  /-- The distinct tokens. -/
  tokens : TokenSet
  /-- The references to element geometry that were registered. -/
  references : FirstSeen Reference
  /-- The elements whose classes are copied. -/
  classCopies : FirstSeen String
  /-- The problems found so far. -/
  diagnostics : List Diagnostic
  /-- The number of source texts. -/
  sources : Nat

namespace Session

/-- The session at its start. -/
def empty : Session := ⟨∅, ∅, ∅, [], 0⟩

instance : EmptyCollection Session := ⟨empty⟩

instance : Inhabited Session := ⟨empty⟩

/-- **Forget what has been gathered.** -/
def reset (s : Session) : Session :=
  { s with
    tokens := ∅
    references := ∅
    classCopies := ∅
    diagnostics := []
    sources := 0 }

/-! ### Gathering -/

/-- **Gather the tokens of a class attribute.** -/
def addClasses (s : Session) (value : String) : Session :=
  { s with tokens := TokenSet.addAll s.tokens (Markup.tokens value) }

/-- Gather the classes of an element that an attribute of the source text asks for. -/
def copyClasses (source : List Char) (s : Session) (id : List Char) : Session :=
  -- The script copies the classes at run time as well, so the id counts even if it is not found.
  let s := { s with classCopies := s.classCopies.insert (String.ofList id) }
  match Markup.elementClasses? source id with
  | some classes => s.addClasses (String.ofList classes)
  | none => { s with diagnostics := s.diagnostics ++ [.unresolvedElement (String.ofList id)] }

/-- Gather the tokens of one attribute of a source text: first those of the elements that it asks
for, then its own. -/
def scanValue (source : List Char) (s : Session) (value : List Char) : Session :=
  ((Markup.classCopies value).foldl (copyClasses source) s).addClasses (String.ofList value)

/-- **Gather the tokens of a source text.** -/
def scan (s : Session) (source : String) : Session :=
  (Markup.attributeValues source.toList).foldl (scanValue source.toList)
    { s with sources := s.sources + 1 }

/-! ### Compiling -/

/-- **Read a token**: its references and its problems go to the session, its rules to the style
sheet. -/
def readToken (v : Vocabulary) (state : Session × StyleSheet) (token : String) :
    Session × StyleSheet :=
  let reading := v.read token
  ({ state.1 with
      references := state.1.references.insertAll reading.references
      diagnostics := state.1.diagnostics ++ reading.diagnostics },
    state.2.add token reading.meaning)

/-- Read all tokens that have been gathered, in order. -/
def readTokens (s : Session) (v : Vocabulary) : Session × StyleSheet :=
  s.tokens.toList.foldl (readToken v) (s, ∅)

/-- **Compile what has been gathered, and forget it**: the session after that, and the output. -/
def finish (s : Session) (v : Vocabulary) (options : Options) : Session × Output :=
  let read := s.readTokens v
  let s := read.1
  let sheet := read.2
  let registry : Registry := ⟨s.references, s.classCopies⟩
  let css := sheet.text options.header?
  let css := if options.minify then Sheet.minify css else css
  let script := Script.text (Script.Plan.ofRegistry registry) options.header?
  let script := if options.minify then Script.minify script else script
  let stats : Stats :=
    { filesScanned := s.sources
      tokenCount := s.tokens.size
      ruleCount := sheet.ruleCount
      referenceCount := registry.references.size
      classCopyCount := registry.classCopies.size
      diagnosticCount := s.diagnostics.length
      cssSize := css.utf8ByteSize
      scriptSize := script.utf8ByteSize
      minified := options.minify }
  -- The problems go to the output, and the rest of the session is forgotten.
  (reset { s with diagnostics := [] }, { css, script, diagnostics := s.diagnostics, stats })

/-- **Compile a list of source texts** in a session, whatever it holds: the session after that, and
the output. -/
def runFrom (s : Session) (v : Vocabulary) (options : Options) (sources : List String) :
    Session × Output :=
  (sources.foldl scan s.reset).finish v options

/-- The output of compiling what has been gathered. -/
def compile (s : Session) (v : Vocabulary) (options : Options) : Output := (s.finish v options).2

/-- The output of compiling a list of source texts in a session at its start. -/
def run (v : Vocabulary) (options : Options) (sources : List String) : Output :=
  (runFrom ∅ v options sources).2

/-! ### Steps -/

/-- What can be asked of a session. -/
inductive Step where
  /-- Gather the tokens of a source text. -/
  | scan (source : String)
  /-- Gather the tokens of a class attribute. -/
  | addClasses (value : String)
  /-- Forget what has been gathered. -/
  | reset
  /-- Compile what has been gathered, and forget it. -/
  | compile
  /-- Forget what has been gathered, and compile a list of source texts. -/
  | run (sources : List String)
deriving DecidableEq, Repr

/-- **Carry out a step**: the session after it, and the output if it compiles. -/
def perform (v : Vocabulary) (options : Options) (s : Session) : Step → Session × Option Output
  | .scan source => (s.scan source, none)
  | .addClasses value => (s.addClasses value, none)
  | .reset => (s.reset, none)
  | .compile =>
    let finished := s.finish v options
    (finished.1, some finished.2)
  | .run sources =>
    let finished := s.runFrom v options sources
    (finished.1, some finished.2)

end Session

/-- Compile one source text. -/
def compileSource (v : Vocabulary) (options : Options) (source : String) : Output :=
  Session.run v options [source]

end UtilityCss
