import UtilityCss.Proofs.Comments
import UtilityCss.Proofs.MinifiedSelector
import UtilityCss.Proofs.RuntimeSupport

/-!
# Headers in minified outputs

The style sheet and the script start with a comment that shows when they were made. Minifying
removes comments, but it works on the header and on what follows as on one text, and the two
minifiers work in different ways. This file shows that neither leaves a trace of the header,
whatever the rest of the text looks like.

Both headers are banners: a comment, in which the timestamp is the only part that varies, and two
line ends (`toList_header`, `toList_headerText`). If the timestamp does not end the comment, the
comment is all that is removed, and nothing behind it is touched (`withoutComments_banner`). What is
left are blanks at the start:

* `Sheet.squeeze_append_blank` — a style sheet loses them, since nothing has been written yet;
* `Script.minifyChars_banner` — a script loses them, since they make blank lines.

A style sheet that has blocks only gets one more blank line behind its header
(`StyleSheet.text_header`), and that is lost in the same way.
-/

namespace UtilityCss

open UtilityCss.Text

/-! ### Banners -/

namespace Text

/-- A comment with a text that varies, and a blank line behind it. -/
def banner (before stamp : List Char) : List Char :=
  commentOpening ++ (before ++ (stamp ++ ['\n', ' ']) ++ (commentEnd ++ ['\n', '\n']))

/-- **Of a banner the line ends stay**, and what follows is treated as if it stood alone. -/
theorem withoutComments_banner {before stamp : List Char} (hbefore : ¬ commentEnd <:+: before)
    (hlast : before.getLast? ≠ some '*') (hstamp : ¬ commentEnd <:+: stamp) (rest : List Char) :
    withoutComments (banner before stamp ++ rest) = '\n' :: '\n' :: withoutComments rest := by
  have hindent : ¬ commentEnd <:+: ['\n', ' '] := by
    rw [← contains_iff_infix]
    decide
  -- No end of a comment comes up at the two seams of the body.
  have htail : ¬ commentEnd <:+: stamp ++ ['\n', ' '] :=
    not_pair_infix_append hstamp hindent fun _ => by simp
  have hbody : ¬ commentEnd <:+: before ++ (stamp ++ ['\n', ' ']) :=
    not_pair_infix_append hbefore htail fun hstar => absurd hstar hlast
  have htext : banner before stamp ++ rest = commentOpening ++ (before ++ (stamp ++ ['\n', ' '])
      ++ (commentEnd ++ '\n' :: '\n' :: rest)) := by
    simp [banner]
  -- So the comment ends where it should, and no line end can open another one.
  rw [htext, withoutComments_comment hbody, withoutComments_cons (.inl (by decide)),
    withoutComments_cons (.inl (by decide))]

end Text

/-! ### Style sheets -/

namespace Sheet

/-- Nothing has been written so far. -/
structure Spacing.Fresh (s : Spacing) : Prop where
  started : s.started = false
  tight : s.tight = false

/-- No space is written before the first character. -/
theorem Spacing.Fresh.gap {s : Spacing} (h : s.Fresh) : s.gap = [] := by
  rw [Spacing.gap, h.started, Bool.and_false]
  rfl

theorem Spacing.Fresh.afterBlank {s : Spacing} (h : s.Fresh) : s.afterBlank.Fresh := by
  -- The blank waits, but this is not part of being fresh.
  rw [Spacing.afterBlank, if_neg (Bool.eq_false_iff.mp h.tight)]
  exact ⟨h.started, h.tight⟩

theorem Spacing.Fresh.afterOmitted {s : Spacing} (h : s.Fresh) : s.afterOmitted.Fresh :=
  ⟨h.started, rfl⟩

/-- As long as nothing has been written, blanks that were read make no difference. -/
theorem squeeze_of_fresh {s s' : Spacing} (hs : s.Fresh) (hs' : s'.Fresh) (text : List Char) :
    squeeze s text = squeeze s' text := by
  induction text generalizing s s' with
  | nil => rfl
  | cons c rest ih =>
    -- What is written first ends the fresh states, so only what comes before it is compared.
    by_cases hc : c = '\\'
    · subst hc
      cases rest with
      | nil => simp only [squeeze, hs.gap, hs'.gap]
      | cons d rest => simp only [squeeze, hs.gap, hs'.gap]
    · rw [squeeze_cons hc, squeeze_cons hc, ih hs.afterBlank hs'.afterBlank,
        ih hs.afterOmitted hs'.afterOmitted, hs.gap, hs'.gap]

/-- **Blanks at the start of a style sheet are lost.** -/
theorem squeeze_append_blank {gap : List Char} (hgap : ∀ c ∈ gap, isBlank c = true)
    (text : List Char) : squeeze .start (gap ++ text) = squeeze .start text := by
  have hstart : Spacing.start.Fresh := ⟨rfl, rfl⟩
  induction gap with
  | nil => rfl
  | cons c gap ih =>
    obtain ⟨hc, hgap⟩ := List.forall_mem_cons.mp hgap
    rw [List.cons_append, squeeze_blank hc, squeeze_of_fresh hstart.afterBlank hstart, ih hgap]

end Sheet

namespace StyleSheet

/-- The header of a style sheet is a banner. -/
theorem toList_header (timestamp : String) :
    (header timestamp).toList
      = banner "\n * Generated by HUHM\n * Date: ".toList timestamp.toList := by
  -- The fixed texts are evaluated; what is left around the timestamp is put together again.
  have hfront : ("/*\n * Generated by " ++ generatorName ++ "\n * Date: ").toList
      = commentOpening ++ "\n * Generated by HUHM\n * Date: ".toList := by decide +kernel
  have hback : "\n */\n\n".toList = ['\n', ' '] ++ (commentEnd ++ ['\n', '\n']) := by decide
  have hchars : (header timestamp).toList
      = ("/*\n * Generated by " ++ generatorName ++ "\n * Date: ").toList ++ timestamp.toList
        ++ "\n */\n\n".toList := by
    unfold header
    rw [String.toList_append, String.toList_append]
  simp only [hchars, hfront, hback, banner, List.append_assoc]

/-- The text with a header is the header and the text without one. A blank line is between them if
the text opens with a block. -/
theorem text_header (sheet : StyleSheet) (timestamp : String) :
    ∃ gap ∈ ["", "\n"], sheet.text (some timestamp)
      = header timestamp ++ gap ++ sheet.text none := by
  -- Behind a header every block has a blank line before it, the first one too.
  have hfront : header timestamp ++ baseText sheet.base ≠ "" := by
    intro hempty
    have hchars := congrArg String.toList hempty
    rw [String.toList_append, toList_header] at hchars
    simp [banner, commentOpening] at hchars
  have hnone : sheet.text none
      = layOut (baseText sheet.base) (sheet.media.entries.map fun e => block e.1 e.2) := by
    rw [text, foldl_appendBlock]
    show layOut ("" ++ baseText sheet.base) _ = _
    rw [String.empty_append]
  have hsome : sheet.text (some timestamp) = header timestamp ++ (baseText sheet.base
      ++ String.join ((sheet.media.entries.map fun e => block e.1 e.2).map ("\n" ++ ·))) := by
    rw [text, foldl_appendBlock, ← String.append_assoc]
    exact if_neg hfront
  rw [hnone, hsome, layOut]
  by_cases hbase : baseText sheet.base = ""
  · -- Without the header the first block would open the text.
    rw [if_pos hbase, hbase, String.empty_append]
    cases sheet.media.entries.map fun e => block e.1 e.2 with
    | nil => exact ⟨"", by simp, by simp⟩
    | cons first blocks =>
      refine ⟨"\n", by simp, ?_⟩
      rw [intercalate_cons_eq_join, List.map_cons, String.join_cons]
      simp only [String.append_assoc]
  · exact ⟨"", by simp, by rw [if_neg hbase, String.append_empty]⟩

/-- **Minifying removes the header of a style sheet.** -/
theorem minify_text_header (sheet : StyleSheet) {timestamp : String}
    (h : ¬ commentEnd <:+: timestamp.toList) :
    Sheet.minify (sheet.text (some timestamp)) = Sheet.minify (sheet.text none) := by
  obtain ⟨gap, hgap, htext⟩ := sheet.text_header timestamp
  have hbefore : ¬ commentEnd <:+: "\n * Generated by HUHM\n * Date: ".toList := by
    rw [← contains_iff_infix]
    decide +kernel
  -- The header leaves its two line ends, and the blank line behind it stays as well.
  have hcomments : withoutComments (sheet.text (some timestamp)).toList
      = ('\n' :: '\n' :: gap.toList) ++ withoutComments (sheet.text none).toList := by
    rw [htext, String.toList_append, String.toList_append, toList_header, List.append_assoc,
      withoutComments_banner hbefore (by decide +kernel) h]
    rcases List.mem_pair.mp hgap with rfl | rfl
    · rfl
    · exact congrArg ('\n' :: '\n' :: ·) (withoutComments_cons (.inl (by decide)))
  -- All of this is blank, and nothing stands before it.
  have hblank : ∀ c ∈ '\n' :: '\n' :: gap.toList, isBlank c = true := by
    rcases List.mem_pair.mp hgap with rfl | rfl
    · exact List.all_eq_true.mp (by decide)
    · exact List.all_eq_true.mp (by decide)
  rw [Sheet.minify, Sheet.minify, Sheet.minifyChars, hcomments, Sheet.squeeze_append_blank hblank]
  rfl

end StyleSheet

/-! ### Scripts -/

namespace Script

/-- The header of a script is a banner. -/
theorem toList_headerText (timestamp : String) :
    (headerText (some timestamp)).toList
      = banner ("*\n * HUHM runtime: CSS variables bound to element geometry\n"
          ++ " * Generated: ").toList timestamp.toList := by
  rw [headerText, toList_join_render]
  simp [headerLines, Line.chars, banner, commentOpening, commentEnd, globalName, blankLine]

/-- **A banner leaves two blank lines**, which are dropped with all others. -/
theorem minifyChars_banner {before stamp : List Char} (hbefore : ¬ commentEnd <:+: before)
    (hlast : before.getLast? ≠ some '*') (hstamp : ¬ commentEnd <:+: stamp) (rest : List Char) :
    minifyChars (banner before stamp ++ rest) = minifyChars rest := by
  have hlines : ∀ text : List Char, lines ('\n' :: '\n' :: text) = [] :: [] :: lines text := by
    intro text
    have hfirst := lines_append [] ('\n' :: text)
    have hsecond := lines_append [] text
    rw [List.nil_append] at hfirst hsecond
    rw [hfirst, hsecond]
    rfl
  rw [minifyChars, withoutComments_banner hbefore hlast hstamp, hlines]
  rfl

/-- **Minifying removes the header of a script.** -/
theorem minify_text_header (p : Plan) {timestamp : String}
    (h : ¬ commentEnd <:+: timestamp.toList) :
    minify (text p (some timestamp)) = minify (text p none) := by
  cases hempty : p.isEmpty with
  | true => rw [text_of_isEmpty hempty, text_of_isEmpty hempty]
  | false =>
    have hbefore : ¬ commentEnd <:+:
        ("*\n * HUHM runtime: CSS variables bound to element geometry\n"
          ++ " * Generated: ").toList := by
      rw [← contains_iff_infix]
      decide +kernel
    rw [text_eq hempty, text_none hempty, minify, minify, String.toList_append, toList_headerText,
      minifyChars_banner hbefore (by decide +kernel) h]

end Script

/-! ### Runs -/

namespace Session

/-- A minified output is the one without a header. -/
theorem compile_of_minify (s : Session) (v : Vocabulary) {options : Options}
    (hminify : options.minify = true) (hstamp : ¬ commentEnd <:+: options.timestamp.toList) :
    s.compile v options = s.compile v ⟨true, false, ""⟩ := by
  obtain ⟨minify, comments, timestamp⟩ := options
  obtain rfl : minify = true := hminify
  -- Without comments there is no header, and the timestamp is not used.
  cases comments with
  | false => rfl
  | true =>
    have hcss := (s.readTokens v).2.minify_text_header hstamp
    have hscript := Script.minify_text_header
      (.ofRegistry ⟨(s.readTokens v).1.references, (s.readTokens v).1.classCopies⟩) hstamp
    simp only [compile, finish, Options.header?, if_true, Bool.false_eq_true, if_false, hcss,
      hscript]

/-- **A minified output shows no trace of its header.** Two runs over the same texts that minify
give the same outputs, with a header or without one, and whatever time the header shows, as long as
the time does not end the comment. -/
theorem run_eq_of_minify (v : Vocabulary) (sources : List String) {options options' : Options}
    (hminify : options.minify = true) (hminify' : options'.minify = true)
    (hstamp : ¬ commentEnd <:+: options.timestamp.toList)
    (hstamp' : ¬ commentEnd <:+: options'.timestamp.toList) :
    run v options sources = run v options' sources := by
  rw [run_eq_compile, run_eq_compile, compile_of_minify _ v hminify hstamp,
    compile_of_minify _ v hminify' hstamp']

/-- A time that opens another comment and ends in a star leaves no trace. -/
theorem comment_opening_in_time_leaves_no_trace :
    let v : Vocabulary := ⟨Table.ofList [("w", .single "width")], ∅, ∅⟩
    let sources := ["<p class='w[#box:width + 1px]'>", "<p class='w[2px]'>"]
    ¬ commentEnd <:+: "/* noon *".toList ∧ ¬ commentEnd <:+: "T0".toList ∧
      run v ⟨true, true, "/* noon *"⟩ sources = run v ⟨true, false, "T0"⟩ sources := by
  intro v sources
  have hnoon : ¬ commentEnd <:+: "/* noon *".toList := by
    rw [← contains_iff_infix]
    decide
  have hzero : ¬ commentEnd <:+: "T0".toList := by
    rw [← contains_iff_infix]
    decide
  exact ⟨hnoon, hzero, run_eq_of_minify v sources rfl rfl hnoon hzero⟩

end Session

end UtilityCss
