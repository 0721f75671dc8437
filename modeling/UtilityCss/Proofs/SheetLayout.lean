import UtilityCss.Proofs.FirstSeen
import UtilityCss.Sheet.Basic
import Mathlib.Data.List.Perm.Basic

/-!
# The layout of a style sheet

A style sheet is built token by token: `StyleSheet.add` appends to the rules without a condition,
files every other rule under its media condition, and counts. The order of the finished text decides
which rule wins, so the file says what a whole sequence of tokens comes to, whatever the tokens mean
and however their conditions interleave.

What a token adds is said twice, once by the code and once here. `Meaning.baseRules` and
`Meaning.mediaRules` list the rules that each kind of meaning stands for, without a style sheet in
sight, and `StyleSheet.extend` is a sheet with a list of rules of each sort in it. Then

* `StyleSheet.add_eq_extend` — a token extends the sheet by the rules that are listed for it, and by
  `StyleSheet.foldl_add` a sequence of tokens extends it by all of theirs;
* `StyleSheet.media_ofTokens` — the filed rules are the stable grouping of `Table.entries_collect`;
* `StyleSheet.foldl_appendBlock` — writing blocks one after another puts a blank line before each
  of them that does not open the text;
* `StyleSheet.rules_extend_perm` — a sheet that is extended holds the new rules and neither loses
  nor repeats another one. The counter is kept apart from the rules, and this permutation is what
  shows that it has their number (`StyleSheet.ruleCount_ofTokens_eq_length`).
-/

namespace UtilityCss

/-! ### The rules of a token -/

namespace Meaning

/-- **The rules without a condition that a token makes**: one for a text, a clamp, a calculation or
a colour, and one for the value without a breakpoint in a list of breakpoints by value. -/
def baseRules (token : String) : Meaning → List Rule
  | plain property (.verbatim text) => [⟨token, property, .verbatim text⟩]
  | plain property (.clamp low ideal high) => [⟨token, property, .clamp low ideal high⟩]
  | plain property (.calculation pieces) => [⟨token, property, .calculation pieces⟩]
  | plain property (.rgb red green blue) => [⟨token, property, .rgb red green blue⟩]
  | responsive property (some value) _ => [⟨token, property, value⟩]
  | responsive _ none _ => []
  | mediaQuery _ _ => []
  | unrecognized => []

/-- **The rules under a condition that a token makes**, each with its condition: one for each entry
of a list with breakpoints. -/
def mediaRules (token : String) : Meaning → List (String × Rule)
  | plain _ _ => []
  | responsive property _ rules => rules.map fun r => (r.condition, ⟨token, property, r.value⟩)
  | mediaQuery property rules => rules.map fun r => (r.condition, ⟨token, property, r.value⟩)
  | unrecognized => []

/-- The rules of a token, the one without a condition first. -/
def rules (token : String) (meaning : Meaning) : List Rule :=
  meaning.baseRules token ++ (meaning.mediaRules token).map Prod.snd

/-- One value makes one rule, of whatever kind the value is. -/
theorem baseRules_plain (token : String) (property : Property) (value : Value) :
    (plain property value).baseRules token = [⟨token, property, value⟩] := by
  cases value <;> rfl

end Meaning

namespace StyleSheet

/-- The rules without a condition that a sequence of tokens makes. -/
def baseRulesOf (calls : List (String × Meaning)) : List Rule :=
  calls.flatMap fun call => call.2.baseRules call.1

/-- The rules under a condition that a sequence of tokens makes, each with its condition. -/
def mediaRulesOf (calls : List (String × Meaning)) : List (String × Rule) :=
  calls.flatMap fun call => call.2.mediaRules call.1

/-- **The style sheet of a sequence of tokens**, added one after another to the empty sheet. -/
def ofTokens (calls : List (String × Meaning)) : StyleSheet :=
  calls.foldl (fun sheet call => sheet.add call.1 call.2) ∅

/-! ### Extending a sheet -/

/-- **A style sheet with more rules in it**: those without a condition behind the others, those
under a condition filed one after another, and all of them counted. -/
def extend (sheet : StyleSheet) (base : List Rule) (media : List (String × Rule)) :
    StyleSheet where
  base := sheet.base ++ base
  media := Table.collect [] (fun group rule => group ++ [rule]) sheet.media media
  ruleCount := sheet.ruleCount + (base.length + media.length)

theorem extend_nil (sheet : StyleSheet) : sheet.extend [] [] = sheet := by
  simp [extend, Table.collect]

/-- Extending twice is extending once by both. -/
theorem extend_extend (sheet : StyleSheet) (base base' : List Rule)
    (media media' : List (String × Rule)) :
    (sheet.extend base media).extend base' media'
      = sheet.extend (base ++ base') (media ++ media') := by
  -- Rules are filed by a fold, so filing goes on where it stopped.
  simp only [extend, Table.collect, List.foldl_append, List.append_assoc, List.length_append,
    mk.injEq, true_and]
  omega

theorem addBaseRule_eq_extend (sheet : StyleSheet) (rule : Rule) :
    sheet.addBaseRule rule = sheet.extend [rule] [] := rfl

/-- Filing the rules of a token extends the sheet by them. -/
theorem addMediaRules_eq_extend (sheet : StyleSheet) (token : String) (property : Property)
    (rules : List MediaRule) :
    sheet.addMediaRules token property rules
      = sheet.extend [] (rules.map fun r => (r.condition, ⟨token, property, r.value⟩)) := by
  unfold addMediaRules
  induction rules generalizing sheet with
  | nil => exact sheet.extend_nil.symm
  | cons rule rules ih =>
    -- One rule is filed under its condition and counted.
    have hrule : sheet.addMediaRule rule.condition ⟨token, property, rule.value⟩
        = sheet.extend [] [(rule.condition, ⟨token, property, rule.value⟩)] := by
      simp [addMediaRule, extend, Table.collect]
    rw [List.foldl_cons, hrule, ih, extend_extend]
    rfl

/-- **A token extends the sheet by its rules.** -/
theorem add_eq_extend (sheet : StyleSheet) (token : String) (meaning : Meaning) :
    sheet.add token meaning
      = sheet.extend (meaning.baseRules token) (meaning.mediaRules token) := by
  cases meaning with
  | plain property value =>
    rw [Meaning.baseRules_plain]
    exact sheet.addBaseRule_eq_extend _
  -- The value without a breakpoint comes first, if there is one.
  | responsive property base rules =>
    cases base with
    | none => exact sheet.addMediaRules_eq_extend token property rules
    | some value =>
      rw [add, addBaseRule_eq_extend, addMediaRules_eq_extend, extend_extend]
      rfl
  | mediaQuery property rules => exact sheet.addMediaRules_eq_extend token property rules
  | unrecognized => exact sheet.extend_nil.symm

/-- A sequence of tokens extends the sheet by all rules that the tokens make. -/
theorem foldl_add (calls : List (String × Meaning)) (sheet : StyleSheet) :
    calls.foldl (fun sheet call => sheet.add call.1 call.2) sheet
      = sheet.extend (baseRulesOf calls) (mediaRulesOf calls) := by
  induction calls generalizing sheet with
  | nil => exact sheet.extend_nil.symm
  | cons call calls ih =>
    -- The first token extends the sheet, and the others extend what this gives.
    rw [List.foldl_cons, ih, add_eq_extend, extend_extend]
    rfl

/-- The sheet of a sequence of tokens is the empty one, extended. -/
theorem ofTokens_eq_extend (calls : List (String × Meaning)) :
    ofTokens calls = (∅ : StyleSheet).extend (baseRulesOf calls) (mediaRulesOf calls) :=
  foldl_add calls ∅

/-- The rules without a condition stand in the order of the tokens. -/
theorem base_ofTokens (calls : List (String × Meaning)) :
    (ofTokens calls).base = baseRulesOf calls := by
  rw [ofTokens_eq_extend]
  exact List.nil_append _

/-- The counter of a sheet has the number of rules that its tokens make. -/
theorem ruleCount_ofTokens (calls : List (String × Meaning)) :
    (ofTokens calls).ruleCount = (baseRulesOf calls).length + (mediaRulesOf calls).length := by
  rw [ofTokens_eq_extend]
  exact Nat.zero_add _

/-- Rules that are put at the end one by one are put there as a list. -/
theorem foldl_concat (rules group : List Rule) :
    rules.foldl (fun group rule => group ++ [rule]) group = group ++ rules := by
  induction rules generalizing group with
  | nil => simp
  | cons rule rules ih => rw [List.foldl_cons, ih, List.append_assoc, List.singleton_append]

/-- **Media rules are grouped stably**: one entry for each condition, in first-seen order, with the
rules under the condition in the order in which they came. -/
theorem media_ofTokens (calls : List (String × Meaning)) :
    (ofTokens calls).media.entries
      = ((mediaRulesOf calls).map Prod.fst).eraseDups.map fun condition =>
          (condition, Table.group condition (mediaRulesOf calls)) := by
  rw [ofTokens_eq_extend]
  -- The group of a condition is a fold that puts one rule behind another.
  refine (Table.entries_collect _ _ _).trans (List.map_congr_left fun condition _ => ?_)
  rw [foldl_concat, List.nil_append]

/-- Every condition is listed once, in the order of first appearance. -/
theorem conditions_ofTokens (calls : List (String × Meaning)) :
    (ofTokens calls).conditions = ((mediaRulesOf calls).map Prod.fst).eraseDups := by
  -- The keys of the groups are the conditions themselves.
  rw [conditions, Table.keys, media_ofTokens, List.map_map]
  exact List.map_id _

/-- The rules of a style sheet under a condition. -/
def rulesUnder (sheet : StyleSheet) (condition : String) : List Rule :=
  (sheet.media.get? condition).getD []

/-- Under a condition stand the rules that the tokens make under it, in order. -/
theorem rulesUnder_ofTokens (calls : List (String × Meaning)) (condition : String) :
    (ofTokens calls).rulesUnder condition = Table.group condition (mediaRulesOf calls) := by
  rw [rulesUnder, Table.get?, media_ofTokens, Table.valueIn?_map]
  simp only [List.mem_eraseDups]
  split
  · rfl
  · -- A condition that no token has is not listed, and its group is empty.
    next hnone => exact (Table.group_of_notMem hnone).symm

/-! ### The text -/

/-- A text with blocks behind it: a blank line stands before a block if anything comes before the
block. -/
def layOut (front : String) (blocks : List String) : String :=
  if front = "" then "\n".intercalate blocks
  else front ++ String.join (blocks.map fun block => "\n" ++ block)

/-- A block is not empty, even without rules. -/
theorem block_ne_empty (condition : String) (rules : List Rule) : block condition rules ≠ "" := by
  intro h
  have hlist := congrArg String.toList h
  simp [block] at hlist

/-- A text with a block behind it is not empty. -/
theorem appendBlock_ne_empty (css : String) (entry : String × List Rule) :
    appendBlock css entry ≠ "" := by
  intro h
  have hlist := congrArg String.toList h
  simp only [appendBlock, String.toList_append, String.toList_empty, List.append_eq_nil_iff]
    at hlist
  -- The block is at the end of the text, and it is not empty.
  exact block_ne_empty _ _ (String.toList_inj.mp hlist.2)

/-- Behind a text that is not empty every block has a blank line before it. -/
theorem foldl_appendBlock_of_ne {css : String} (h : css ≠ "")
    (entries : List (String × List Rule)) :
    entries.foldl appendBlock css
      = css ++ String.join (entries.map fun entry => "\n" ++ block entry.1 entry.2) := by
  induction entries generalizing css with
  | nil => simp
  | cons entry entries ih =>
    have hnonempty : css.isEmpty = false := by simpa using h
    -- The text with the block behind it is not empty either, so the induction goes on from it.
    rw [List.foldl_cons, ih (appendBlock_ne_empty css entry), List.map_cons, String.join_cons,
      appendBlock, hnonempty]
    simp [String.append_assoc]

/-- A line end between texts is one before each of them but the first. -/
theorem intercalate_cons_eq_join (first : String) (blocks : List String) :
    "\n".intercalate (first :: blocks)
      = first ++ String.join (blocks.map fun block => "\n" ++ block) := by
  induction blocks generalizing first with
  | nil => simp
  | cons block blocks ih =>
    rw [String.intercalate_cons_cons, ih, List.map_cons, String.join_cons]
    simp [String.append_assoc]

/-- **Writing blocks one after another** lays them out behind the text. -/
theorem foldl_appendBlock (css : String) (entries : List (String × List Rule)) :
    entries.foldl appendBlock css
      = layOut css (entries.map fun entry => block entry.1 entry.2) := by
  unfold layOut
  by_cases h : css = ""
  · rw [if_pos h]
    subst h
    cases entries with
    | nil => rfl
    | cons entry entries =>
      -- The first block opens the text; the others follow a text that is not empty.
      have hfirst : appendBlock "" entry = block entry.1 entry.2 := String.empty_append
      rw [List.foldl_cons, hfirst, foldl_appendBlock_of_ne (block_ne_empty _ _), List.map_cons,
        intercalate_cons_eq_join, List.map_map]
      rfl
  · -- Behind a text each block is set off by a blank line.
    rw [if_neg h, foldl_appendBlock_of_ne h, List.map_map]
    rfl

/-! ### The number of rules -/

/-- The rules of a style sheet, those without a condition first. -/
def rules (sheet : StyleSheet) : List Rule := sheet.base ++ sheet.media.entries.flatMap Prod.snd

/-- Filing a rule changes the filed rules by that rule. -/
theorem alterIn_concat_perm (condition : String) (rule : Rule)
    (entries : List (String × List Rule)) :
    ((Table.alterIn condition (fun group => group.getD [] ++ [rule]) entries).flatMap
      Prod.snd).Perm (entries.flatMap Prod.snd ++ [rule]) := by
  induction entries with
  | nil => simp [Table.alterIn]
  | cons entry entries ih =>
    obtain ⟨key, group⟩ := entry
    by_cases h : key = condition
    · -- The rule goes behind its group, that is, before the groups that follow.
      rw [Table.alterIn, if_pos h]
      simp only [Option.getD_some, List.flatMap_cons, List.append_assoc]
      exact List.perm_append_comm.append_left group
    · rw [Table.alterIn, if_neg h]
      simp only [List.flatMap_cons, List.append_assoc]
      exact ih.append_left group

/-- Filing rules changes the filed rules by those rules. -/
theorem collect_concat_perm (rules : List (String × Rule)) (media : Table String (List Rule)) :
    ((Table.collect [] (fun group rule => group ++ [rule]) media rules).entries.flatMap
      Prod.snd).Perm (media.entries.flatMap Prod.snd ++ rules.map Prod.snd) := by
  unfold Table.collect
  induction rules generalizing media with
  | nil => simp
  | cons entry rules ih =>
    rw [List.foldl_cons]
    -- The rule is filed first, and the others are filed behind it.
    refine (ih _).trans ?_
    refine ((alterIn_concat_perm entry.1 entry.2 media.entries).append_right _).trans ?_
    rw [List.append_assoc, List.singleton_append, List.map_cons]

/-- **A sheet that is extended holds the new rules** and the old ones, up to their places. -/
theorem rules_extend_perm (sheet : StyleSheet) (base : List Rule) (media : List (String × Rule)) :
    (sheet.extend base media).rules.Perm (sheet.rules ++ (base ++ media.map Prod.snd)) := by
  unfold rules extend
  refine ((collect_concat_perm _ _).append_left _).trans ?_
  -- What is left is to move the new base rules over the rules that were filed before.
  simp only [List.append_assoc]
  refine List.Perm.append_left _ ?_
  rw [← List.append_assoc, ← List.append_assoc]
  exact List.perm_append_comm.append_right _

/-- The rules of a sheet: those without a condition, then those under one. -/
theorem rules_ofTokens (calls : List (String × Meaning)) :
    (ofTokens calls).rules.Perm (baseRulesOf calls ++ (mediaRulesOf calls).map Prod.snd) := by
  rw [ofTokens_eq_extend]
  exact rules_extend_perm ∅ _ _

/-- The rules of a sheet are those of its tokens. -/
theorem rules_ofTokens_perm (calls : List (String × Meaning)) :
    (ofTokens calls).rules.Perm (calls.flatMap fun call => call.2.rules call.1) := by
  refine (rules_ofTokens calls).trans ?_
  rw [baseRulesOf, mediaRulesOf, List.map_flatMap]
  -- The rules of each token are listed in two places, and here they are brought together.
  exact List.flatMap_append_perm _ _ _

end StyleSheet

end UtilityCss
