import UtilityCss.Proofs.Scanning
import UtilityCss.Proofs.SheetLayout
import UtilityCss.Session

/-!
# What a session gathers

A session gathers by nested loops: over source texts, over the class attributes of each text, and
over the markers in each attribute, which bring in the tokens of another element. Every step of
every loop only adds to what is there, so a step is described by what it adds. That is a `Yield`:
tokens, class copies and problems in the order in which they come up, repetitions included, and the
texts that were scanned. `Session.absorb` takes a yield in, and

* `Session.foldl_absorb` — a loop whose steps take in yields takes in all of them, one after
  another;
* `Session.scan_eq_absorb` — scanning a text takes in `Yield.ofSource`, which lists for each
  attribute the tokens of the elements that it asks for and then its own;
* `Session.readTokens_eq` — reading the tokens of a session adds what they register and report, and
  leaves the rest of the session as it is;
* `Session.compile_of_same` — the style sheet and the script depend on the tokens, the references
  and the class copies alone.

Tokens that come out of an attribute are trimmed and not empty (`isStored_of_mem_tokens`), so the
set of tokens takes them as they are.
-/

namespace UtilityCss

open UtilityCss.Text

/-! ### Stored tokens -/

/-- **A token that is stored as it is**: trimmed and not empty. -/
structure IsStored (token : String) : Prop where
  ne_empty : token ≠ ""
  trimmed : trimToken token = token

/-- The tokens of an attribute are stored as they are. -/
theorem isStored_of_mem_tokens {value token : String} (h : token ∈ Markup.tokens value) :
    IsStored token := by
  obtain ⟨chunk, hchunk, rfl⟩ := List.mem_map.mp h
  -- A token is a chunk that was trimmed, and chunks that are empty then were left out.
  obtain ⟨hmem, hne⟩ := List.mem_filter.mp (List.mem_filter.mp hchunk).1
  obtain ⟨raw, -, rfl⟩ := List.mem_map.mp hmem
  constructor
  · intro hempty
    have hnil : trim raw = [] := by simpa using congrArg String.toList hempty
    rw [hnil] at hne
    exact Bool.noConfusion hne
  · rw [trimToken, String.toList_ofList, trim_trim]

/-- Tokens that are stored as they are go into the set without being trimmed. -/
theorem TokenSet.addAll_eq_insertAll {tokens : List String} (h : ∀ t ∈ tokens, IsStored t)
    (s : TokenSet) : s.addAll tokens = s.insertAll tokens := by
  rw [addAll]
  -- The set grows from token to token.
  induction tokens generalizing s with
  | nil => rw [List.foldl_nil, FirstSeen.insertAll_nil]
  | cons t tokens ih =>
    obtain ⟨ht, htokens⟩ := List.forall_mem_cons.mp h
    -- Trimming changes nothing, and the token is not the empty one that is refused.
    have hadd : s.add t = s.insert t := by
      rw [add, ht.trimmed, if_neg (by simpa using ht.ne_empty)]
    rw [List.foldl_cons, hadd, ih htokens, FirstSeen.insertAll_cons]

/-! ### Yields -/

/-- **What a step of gathering adds to a session**, in order and with repetitions. -/
structure Yield where
  /-- The tokens. -/
  tokens : List String
  /-- The elements whose classes are copied. -/
  classCopies : List String
  /-- The problems. -/
  diagnostics : List Diagnostic
  /-- The texts that were scanned. -/
  sources : List String

namespace Yield

/-- The yield of a step that gathers nothing. -/
def nothing : Yield := ⟨[], [], [], []⟩

instance : Append Yield where
  append y z := ⟨y.tokens ++ z.tokens, y.classCopies ++ z.classCopies,
    y.diagnostics ++ z.diagnostics, y.sources ++ z.sources⟩

theorem append_def (y z : Yield) :
    y ++ z = ⟨y.tokens ++ z.tokens, y.classCopies ++ z.classCopies,
      y.diagnostics ++ z.diagnostics, y.sources ++ z.sources⟩ := rfl

/-- The yields of the items of a list, one after another. -/
def all {α : Type} (yield : α → Yield) (items : List α) : Yield where
  tokens := items.flatMap fun a => (yield a).tokens
  classCopies := items.flatMap fun a => (yield a).classCopies
  diagnostics := items.flatMap fun a => (yield a).diagnostics
  sources := items.flatMap fun a => (yield a).sources

theorem all_cons {α : Type} (yield : α → Yield) (a : α) (items : List α) :
    all yield (a :: items) = yield a ++ all yield items := rfl

/-- The tokens of the element that a marker asks for; none if the text does not hold it. -/
def copiedTokens (source id : List Char) : List String :=
  match Markup.elementClasses? source id with
  | some classes => Markup.tokens (String.ofList classes)
  | none => []

/-- The problem with a marker whose element the text does not hold. -/
def unresolved (source id : List Char) : List Diagnostic :=
  match Markup.elementClasses? source id with
  | some _ => []
  | none => [.unresolvedElement (String.ofList id)]

/-- The yield of a marker. The element counts as copied whether or not it is found. -/
def ofMarker (source id : List Char) : Yield where
  tokens := copiedTokens source id
  classCopies := [String.ofList id]
  diagnostics := unresolved source id
  sources := []

/-- The yield of a class attribute on its own. -/
def ofClasses (value : String) : Yield := ⟨Markup.tokens value, [], [], []⟩

/-- **The yield of a class attribute of a source text**: the tokens of the elements that it asks
for, then its own. -/
def ofValue (source value : List Char) : Yield where
  tokens := (Markup.classCopies value).flatMap (copiedTokens source)
    ++ Markup.tokens (String.ofList value)
  classCopies := (Markup.classCopies value).map String.ofList
  diagnostics := (Markup.classCopies value).flatMap (unresolved source)
  sources := []

/-- **The yield of a source text**, attribute by attribute. -/
def ofSource (source : String) : Yield where
  tokens := (Markup.attributeValues source.toList).flatMap fun value =>
    (ofValue source.toList value).tokens
  classCopies := (Markup.attributeValues source.toList).flatMap fun value =>
    (ofValue source.toList value).classCopies
  diagnostics := (Markup.attributeValues source.toList).flatMap fun value =>
    (ofValue source.toList value).diagnostics
  sources := [source]

/-- An attribute yields what its markers yield and then its own tokens. -/
theorem all_ofMarker_append (source value : List Char) :
    all (ofMarker source) (Markup.classCopies value) ++ ofClasses (String.ofList value)
      = ofValue source value := by
  simp [all, ofMarker, ofClasses, ofValue, append_def, List.map_eq_flatMap]

/-- **All tokens of a source text are stored as they are**, whichever way they come in. -/
theorem isStored_of_mem_ofSource {source token : String} (h : token ∈ (ofSource source).tokens) :
    IsStored token := by
  obtain ⟨value, -, hvalue⟩ := List.mem_flatMap.mp h
  -- A token comes from an element that was asked for or from the attribute itself.
  rcases List.mem_append.mp hvalue with hcopied | hown
  · obtain ⟨id, -, hid⟩ := List.mem_flatMap.mp hcopied
    unfold copiedTokens at hid
    split at hid
    · exact isStored_of_mem_tokens hid
    · exact absurd hid List.not_mem_nil
  · exact isStored_of_mem_tokens hown

end Yield

/-! ### Taking in what a step yields -/

namespace Session

/-- **Take in what a step yields.** Gathering registers no reference. -/
def absorb (s : Session) (y : Yield) : Session where
  tokens := s.tokens.insertAll y.tokens
  references := s.references
  classCopies := s.classCopies.insertAll y.classCopies
  diagnostics := s.diagnostics ++ y.diagnostics
  sources := s.sources + y.sources.length

theorem absorb_append (s : Session) (y z : Yield) : s.absorb (y ++ z) = (s.absorb y).absorb z := by
  simp [absorb, Yield.append_def, FirstSeen.insertAll_append, Nat.add_assoc]

theorem absorb_nothing (s : Session) : s.absorb .nothing = s := by
  simp [absorb, Yield.nothing]

/-- **A loop takes in what its steps yield**, one after another. -/
theorem foldl_absorb {α : Type} {step : Session → α → Session} {yield : α → Yield}
    {items : List α} (h : ∀ a ∈ items, ∀ s, step s a = s.absorb (yield a)) (s : Session) :
    items.foldl step s = s.absorb (.all yield items) := by
  -- The session is that after the steps so far, so it is any session.
  induction items generalizing s with
  | nil => exact s.absorb_nothing.symm
  | cons a items ih =>
    obtain ⟨ha, hitems⟩ := List.forall_mem_cons.mp h
    rw [List.foldl_cons, ih hitems, ha, Yield.all_cons, absorb_append]

/-- Adding classes takes in the tokens of an attribute. -/
theorem addClasses_eq_absorb (s : Session) (value : String) :
    s.addClasses value = s.absorb (.ofClasses value) := by
  rw [addClasses, TokenSet.addAll_eq_insertAll fun t => isStored_of_mem_tokens]
  simp [absorb, Yield.ofClasses]

/-- **A marker takes in its yield**, found or not. -/
theorem copyClasses_eq_absorb (source : List Char) (s : Session) (id : List Char) :
    copyClasses source s id = s.absorb (.ofMarker source id) := by
  unfold copyClasses Yield.ofMarker Yield.copiedTokens Yield.unresolved
  -- Found, its tokens come in; otherwise a problem does. The element counts in both cases.
  cases Markup.elementClasses? source id with
  | some classes =>
    dsimp only
    rw [addClasses_eq_absorb]
    simp [absorb, Yield.ofClasses]
  | none => simp [absorb]

/-- An attribute takes in its yield: a loop over its markers, then its own tokens. -/
theorem scanValue_eq_absorb (source : List Char) (s : Session) (value : List Char) :
    scanValue source s value = s.absorb (.ofValue source value) := by
  rw [scanValue, foldl_absorb fun id _ s => copyClasses_eq_absorb source s id,
    addClasses_eq_absorb, ← absorb_append, Yield.all_ofMarker_append]

/-- **Scanning a text takes in its yield.** -/
theorem scan_eq_absorb (s : Session) (source : String) :
    s.scan source = s.absorb (.ofSource source) := by
  rw [scan, foldl_absorb fun value _ s => scanValue_eq_absorb source.toList s value]
  -- The text itself is counted behind its attributes.
  simp [absorb, Yield.all, Yield.ofSource, Yield.ofValue]

/-- Scanning texts takes in all their yields. -/
theorem foldl_scan_eq_absorb (sources : List String) :
    sources.foldl scan ∅ = (∅ : Session).absorb (.all .ofSource sources) :=
  foldl_absorb (fun source _ s => scan_eq_absorb s source) ∅

/-- A fresh session keeps each token at its first place. -/
theorem tokens_absorb (y : Yield) :
    ((∅ : Session).absorb y).tokens.toList = y.tokens.eraseDups :=
  FirstSeen.toList_ofList y.tokens

theorem classCopies_absorb (y : Yield) :
    ((∅ : Session).absorb y).classCopies.toList = y.classCopies.eraseDups :=
  FirstSeen.toList_ofList y.classCopies

/-- Tokens and class copies that are known already change nothing; problems and texts count
again. -/
theorem absorb_of_known {s : Session} {y : Yield} (htokens : ∀ t ∈ y.tokens, t ∈ s.tokens)
    (hcopies : ∀ id ∈ y.classCopies, id ∈ s.classCopies) :
    s.absorb y = { s with
      diagnostics := s.diagnostics ++ y.diagnostics, sources := s.sources + y.sources.length } := by
  -- Both are sets, so what is there is not inserted again.
  rw [absorb, FirstSeen.insertAll_of_forall_mem htokens, FirstSeen.insertAll_of_forall_mem hcopies]

/-! ### Reading what was gathered -/

/-- The style sheet of a session. -/
def sheet (s : Session) (v : Vocabulary) : StyleSheet := (s.readTokens v).2

/-- The registry that the script of a session serves: what it holds when all tokens were read. -/
def registry (s : Session) (v : Vocabulary) : Registry where
  references := (s.readTokens v).1.references
  classCopies := (s.readTokens v).1.classCopies

/-- **Reading tokens adds to the references and to the problems**, and nothing else in the session
changes. The style sheet grows by one token after another. -/
theorem foldl_readToken (v : Vocabulary) (tokens : List String) (s : Session)
    (sheet : StyleSheet) :
    tokens.foldl (readToken v) (s, sheet)
      = ({ s with
            references := s.references.insertAll (tokens.flatMap fun t => (v.read t).references)
            diagnostics := s.diagnostics ++ tokens.flatMap fun t => (v.read t).diagnostics },
          (tokens.map fun t => (t, (v.read t).meaning)).foldl
            (fun sheet call => sheet.add call.1 call.2) sheet) := by
  -- Both the session and the style sheet change from token to token.
  induction tokens generalizing s sheet with
  | nil => simp
  | cons token tokens ih =>
    rw [List.foldl_cons, readToken, ih]
    -- The first token adds its share, and the others go on from there.
    simp [FirstSeen.insertAll_append]

/-- **Reading the tokens of a session**, all of them from the empty style sheet. -/
theorem readTokens_eq (s : Session) (v : Vocabulary) :
    s.readTokens v
      = ({ s with
            references := s.references.insertAll
              (s.tokens.toList.flatMap fun t => (v.read t).references)
            diagnostics := s.diagnostics ++ s.tokens.toList.flatMap fun t =>
              (v.read t).diagnostics },
          StyleSheet.ofTokens (s.tokens.toList.map fun t => (t, (v.read t).meaning))) :=
  foldl_readToken v s.tokens.toList s ∅

/-- The style sheet of a session is that of its tokens, each added once and in order. -/
theorem sheet_eq_ofTokens (s : Session) (v : Vocabulary) :
    s.sheet v = StyleSheet.ofTokens (s.tokens.toList.map fun t => (t, (v.read t).meaning)) := by
  rw [sheet, readTokens_eq]

/-- The registry of a session: what was registered before, then what its tokens register. -/
theorem registry_eq (s : Session) (v : Vocabulary) :
    s.registry v
      = ⟨s.references.insertAll (s.tokens.toList.flatMap fun t => (v.read t).references),
          s.classCopies⟩ := by
  rw [registry, readTokens_eq]

@[simp] theorem classCopies_registry (s : Session) (v : Vocabulary) :
    (s.registry v).classCopies = s.classCopies := by
  rw [registry_eq]

/-! ### Compiling what was gathered -/

/-- **A reset brings back the session at its start**, whatever was gathered, registered and
reported. -/
theorem reset_eq_empty (s : Session) : s.reset = ∅ := rfl

/-- A run compiles what its texts yield, taken in one after another. -/
theorem run_eq_compile (v : Vocabulary) (options : Options) (sources : List String) :
    run v options sources = (sources.foldl scan ∅).compile v options := by
  -- A run resets its session first.
  rw [run, runFrom, reset_eq_empty]
  rfl

theorem css_compile (s : Session) (v : Vocabulary) (options : Options) :
    (s.compile v options).css
      = if options.minify then Sheet.minify ((s.sheet v).text options.header?)
        else (s.sheet v).text options.header? := rfl

theorem script_compile (s : Session) (v : Vocabulary) (options : Options) :
    (s.compile v options).script
      = if options.minify
        then Script.minify (Script.text (.ofRegistry (s.registry v)) options.header?)
        else Script.text (.ofRegistry (s.registry v)) options.header? := rfl

/-- The problems of a compilation: those of the session, then those of its tokens. -/
theorem diagnostics_compile (s : Session) (v : Vocabulary) (options : Options) :
    (s.compile v options).diagnostics
      = s.diagnostics ++ s.tokens.toList.flatMap fun t => (v.read t).diagnostics := by
  show (s.readTokens v).1.diagnostics = _
  rw [readTokens_eq]

/-- The figures of a compilation. Reading tokens changes neither the tokens nor the number of
texts. -/
theorem stats_compile (s : Session) (v : Vocabulary) (options : Options) :
    (s.compile v options).stats =
      { filesScanned := s.sources
        tokenCount := s.tokens.size
        ruleCount := (s.sheet v).ruleCount
        referenceCount := (s.registry v).references.size
        classCopyCount := (s.registry v).classCopies.size
        diagnosticCount := (s.compile v options).diagnostics.length
        cssSize := (s.compile v options).css.utf8ByteSize
        scriptSize := (s.compile v options).script.utf8ByteSize
        minified := options.minify } := by
  -- The figures are taken from the session behind the reading of tokens.
  have hsources : (s.readTokens v).1.sources = s.sources := by rw [readTokens_eq]
  have htokens : (s.readTokens v).1.tokens = s.tokens := by rw [readTokens_eq]
  rw [← hsources, ← htokens]
  rfl

/-- **The style sheet and the script depend on the tokens, the references and the class copies
alone.** The figures depend on the number of texts and of problems besides. -/
theorem compile_of_same {s t : Session} (htokens : t.tokens = s.tokens)
    (hreferences : t.references = s.references) (hcopies : t.classCopies = s.classCopies)
    (v : Vocabulary) (options : Options) :
    (t.compile v options).css = (s.compile v options).css ∧
      (t.compile v options).script = (s.compile v options).script ∧
      (t.compile v options).stats = { (s.compile v options).stats with
        filesScanned := t.sources
        diagnosticCount := (t.compile v options).diagnostics.length } := by
  obtain ⟨tokens, references, classCopies, diagnostics, sources⟩ := t
  obtain rfl : tokens = s.tokens := htokens
  obtain rfl : references = s.references := hreferences
  obtain rfl : classCopies = s.classCopies := hcopies
  -- The problems pass through the reading of tokens without being looked at.
  simp only [compile, finish, readTokens_eq]
  exact ⟨trivial, trivial, trivial⟩

end Session

end UtilityCss
