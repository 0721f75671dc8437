import UtilityCss.Sheet.Rule
import UtilityCss.Table

/-!
# Style sheets

A style sheet collects the rules of tokens: those without a condition in the order in which they
came, and the others grouped by media condition, the groups in the order in which their conditions
were first seen. It counts the rules as they are added. Its text is an optional header comment, the
rules without a condition one to a line, and one block for each media condition. A blank line stands
before a block unless the block comes first.
-/

namespace UtilityCss

/-- The name that marks what the compiler writes. -/
def generatorName : String := "HUHM"

/-- The rules of a style sheet. -/
structure StyleSheet where
  /-- The rules that hold under no condition. -/
  base : List Rule
  /-- The rules under each media condition. -/
  media : Table String (List Rule)
  /-- How many rules have been added, under a condition or not. -/
  ruleCount : Nat

namespace StyleSheet

/-- The style sheet without rules. -/
def empty : StyleSheet := ⟨[], ∅, 0⟩

instance : EmptyCollection StyleSheet := ⟨empty⟩

instance : Inhabited StyleSheet := ⟨empty⟩

/-- Add a rule that holds under no condition. -/
def addBaseRule (s : StyleSheet) (rule : Rule) : StyleSheet :=
  { s with
    base := s.base ++ [rule]
    ruleCount := s.ruleCount + 1 }

/-- Add a rule under a media condition, behind those that are already there. -/
def addMediaRule (s : StyleSheet) (condition : String) (rule : Rule) : StyleSheet :=
  { s with
    media := s.media.alter condition fun rules => rules.getD [] ++ [rule]
    ruleCount := s.ruleCount + 1 }

/-- Add the rules of a token under media conditions, one after another. -/
def addMediaRules (s : StyleSheet) (token : String) (property : Property)
    (rules : List MediaRule) : StyleSheet :=
  rules.foldl (fun s rule => s.addMediaRule rule.condition ⟨token, property, rule.value⟩) s

/-- **Add the rules of a token.** -/
def add (s : StyleSheet) (token : String) : Meaning → StyleSheet
  | .plain property value => s.addBaseRule ⟨token, property, value⟩
  | .responsive property none rules => s.addMediaRules token property rules
  | .responsive property (some value) rules =>
    (s.addBaseRule ⟨token, property, value⟩).addMediaRules token property rules
  | .mediaQuery property rules => s.addMediaRules token property rules
  | .unrecognized => s

/-- The media conditions, in the order in which they were first seen. -/
def conditions (s : StyleSheet) : List String := s.media.keys

/-! ### The text of a style sheet -/

/-- The comment at the head of a style sheet. -/
def header (timestamp : String) : String :=
  "/*\n * Generated by " ++ generatorName ++ "\n * Date: " ++ timestamp ++ "\n */\n\n"

/-- The rules that hold under no condition, one to a line. -/
def baseText (rules : List Rule) : String := String.join (rules.map fun r => r.text ++ "\n")

/-- The block of a media condition. -/
def block (condition : String) (rules : List Rule) : String :=
  "@media " ++ condition ++ " \x7b\n" ++ String.join (rules.map fun r => "  " ++ r.text ++ "\n")
    ++ "\x7d\n"

/-- Write a block behind a text, with a blank line between them. -/
def appendBlock (css : String) (entry : String × List Rule) : String :=
  (if css.isEmpty then "" else css ++ "\n") ++ block entry.1 entry.2

/-- **The text of a style sheet**, with a header comment if there is a timestamp. -/
def text (s : StyleSheet) (timestamp : Option String) : String :=
  s.media.entries.foldl appendBlock
    ((timestamp.map header).getD "" ++ baseText s.base)

end StyleSheet

end UtilityCss
