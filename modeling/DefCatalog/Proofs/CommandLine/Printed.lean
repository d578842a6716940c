import DefCatalog.CommandLine.Run
import DefCatalog.Proofs.Completion.Suggestion
import DefCatalog.Proofs.Json.Record
import DefCatalog.Proofs.Provider.Loading
import DefCatalog.Proofs.Text.Pieces

/-!
# Printed suggestions

The suggestions for a line are printed in one of two forms: as a document, or on lines with the
name and its label. The document gives back all names and labels. The lines give them back only if
no name holds a line feed, since names are printed as they are. Labels never hold a tab or a line
feed.
-/

namespace DefCatalog

open Json (Value)

variable {catalog : Catalog} {suggestion : Suggestion} {suggestions : List Suggestion} {line : Text}

theorem Trigger.OfWords.toLower {c : Char} (h : OfWords c) : OfWords c.toLower := by
  have hall : ∀ n < 0x80, OfWords (Char.ofNat n) → OfWords (Char.ofNat n).toLower := by decide
  have hlower := hall c.toNat h.toNat_lt
  rw [Char.ofNat_toNat] at hlower
  exact hlower h

theorem Catalog.ofWords_of_mem_label (h : suggestion ∈ catalog.suggestions line) :
    ∀ c ∈ suggestion.label, Trigger.OfWords c := by
  obtain ⟨lead, word, filter, hcut, _⟩ := exists_cuts_of_suggestions (List.ne_nil_of_mem h)
  rw [suggestions_of_cuts catalog hcut] at h
  split at h
  · obtain ⟨name, _, rfl⟩ := List.mem_map.mp h
    intro c hc
    have hlabel : c ∈ Text.lower word := hc
    rw [hcut.lower_word] at hlabel
    obtain ⟨capital, hcapital, rfl⟩ := List.mem_map.mp hlabel
    exact (hcut.ofWords_word capital hcapital).toLower
  · cases h

theorem Catalog.not_mem_label (h : suggestion ∈ catalog.suggestions line) :
    '\t' ∉ suggestion.label ∧ '\n' ∉ suggestion.label := by
  have hwords := ofWords_of_mem_label h
  have hneither : ¬Trigger.OfWords '\t' ∧ ¬Trigger.OfWords '\n' := by decide
  exact ⟨fun htab ↦ hneither.1 (hwords _ htab), fun hfeed ↦ hneither.2 (hwords _ hfeed)⟩

namespace Suggestion

/-- The text of a suggestion with its label. -/
def pair (suggestion : Suggestion) : Text × Text :=
  (suggestion.text, suggestion.label)

/-- What stands before and after the only tab of a line. -/
def cutAtTab? (line : Text) : Option (Text × Text) :=
  match Text.splitOn '\t' line with
  | [before, after] => some (before, after)
  | _ => none

/-- What stands before and after the last tab of a line. -/
def cutAtLastTab (line : Text) : Text × Text :=
  (['\t'].intercalate (Text.splitOn '\t' line).dropLast,
    (Text.splitOn '\t' line).getLast (Text.splitOn_ne_nil '\t' line))

theorem splitOn_suggestionLine (h : '\t' ∉ suggestion.label) :
    Text.splitOn '\t' (Session.suggestionLine suggestion) =
      Text.splitOn '\t' suggestion.text ++ [suggestion.label] := by
  rw [Session.suggestionLine, Text.splitOn_append_separator, Text.splitOn_of_not_mem h]

theorem cutAtLastTab_suggestionLine (h : '\t' ∉ suggestion.label) :
    cutAtLastTab (Session.suggestionLine suggestion) = suggestion.pair := by
  simp only [cutAtLastTab, splitOn_suggestionLine h, List.dropLast_concat, List.getLast_concat,
    Text.intercalate_splitOn, Suggestion.pair]

theorem cutAtTab?_suggestionLine_iff (h : '\t' ∉ suggestion.label) :
    cutAtTab? (Session.suggestionLine suggestion) = some suggestion.pair ↔
      '\t' ∉ suggestion.text := by
  rw [cutAtTab?, splitOn_suggestionLine h]
  constructor
  · intro hcut
    rw [← Text.length_splitOn_eq_one_iff]
    split at hcut
    · rename_i before after hpieces
      have hlength := congrArg List.length hpieces
      simpa using hlength
    · cases hcut
  · intro htab
    rw [Text.splitOn_of_not_mem htab]
    rfl

/-- The text and the label of a suggestion that is given as a JSON value. -/
def pairOf? (value : Value) : Option (Text × Text) :=
  match value.fields? ["text".toList, "leftLabel".toList] with
  | some [some text, some label] => do return (← text.text?, ← label.text?)
  | _ => none

/-- The texts and labels of the suggestions of a document. -/
def pairs? (document : Text) : Option (List (Text × Text)) := do
  (← (← Json.read? document).items?).mapM pairOf?

/-- The fields of a suggestion that is given as a JSON value. -/
def fields (suggestion : Suggestion) : List (Text × Value) :=
  [("text".toList, .ofText suggestion.text), ("type".toList, .ofText Suggestion.group),
    ("leftLabel".toList, .ofText suggestion.label),
    ("description".toList, .ofText suggestion.description),
    ("replacementPrefix".toList, .ofText suggestion.replaced)]

theorem suggestionValue_eq (suggestion : Suggestion) :
    Session.suggestionValue suggestion = .object (Json.membersOf suggestion.fields) :=
  rfl

theorem pairOf?_reread (suggestion : Suggestion) :
    pairOf? (Session.suggestionValue suggestion).reread = some suggestion.pair := by
  have hnodup : (suggestion.fields.map Prod.fst).Nodup := by
    have hnames : ["text".toList, "type".toList, "leftLabel".toList, "description".toList,
        "replacementPrefix".toList].Nodup := by decide
    exact hnames
  have hlookup : ["text".toList, "leftLabel".toList].map
      (fun name ↦ (List.lookup name suggestion.fields).map Value.reread) =
        [some (Value.ofText suggestion.text).reread, some (Value.ofText suggestion.label).reread] :=
    rfl
  rw [suggestionValue_eq, pairOf?, Json.fields?_reread _ hnodup, hlookup]
  simp only [Json.text?_reread_ofText]
  rfl

theorem hasNaturals_suggestionValue (suggestion : Suggestion) :
    Json.HasNaturals (Session.suggestionValue suggestion).tokens := by
  rw [suggestionValue_eq]
  apply Json.hasNaturals_membersOf
  intro field hfield
  simp only [Suggestion.fields, List.mem_cons, List.not_mem_nil, or_false] at hfield
  rcases hfield with rfl | rfl | rfl | rfl | rfl <;> exact Json.hasNaturals_ofText _

theorem pairs?_write (suggestions : List Suggestion) :
    pairs? (Json.write (.array (suggestions.map Session.suggestionValue)) ++ ['\n']) =
      some (suggestions.map Suggestion.pair) := by
  have hnaturals : Json.HasNaturals
      (Value.array (suggestions.map Session.suggestionValue)).tokens := by
    apply Json.hasNaturals_array
    intro value hvalue
    obtain ⟨suggestion, _, rfl⟩ := List.mem_map.mp hvalue
    exact hasNaturals_suggestionValue suggestion
  have hfeed : Json.Spells [] ['\n'] := .blanks fun _ hmem ↦ List.mem_singleton.mp hmem ▸ rfl
  have hspells := (Json.spells_write hnaturals).append hfeed
  rw [List.append_nil] at hspells
  have hpairs : (Json.rereadItems (suggestions.map Session.suggestionValue)).mapM pairOf? =
      some (suggestions.map Suggestion.pair) := by
    rw [Json.mapM_eq_some_iff, Json.rereadItems_eq_map, List.map_map, List.forall₂_map_left_iff,
      List.forall₂_map_right_iff, List.forall₂_same]
    exact fun suggestion _ ↦ pairOf?_reread suggestion
  rw [pairs?, hspells.read?]
  exact hpairs

/-- The plain form of some suggestions: the text, a tab, the label and a line feed for each. -/
def plainText (suggestions : List Suggestion) : Text :=
  suggestions.flatMap fun suggestion ↦ suggestion.text ++ '\t' :: (suggestion.label ++ ['\n'])

theorem plainText_eq (suggestions : List Suggestion) :
    plainText suggestions =
      (suggestions.map Session.suggestionLine).flatMap (· ++ ['\n']) := by
  rw [plainText, List.flatMap_map]
  simp only [Session.suggestionLine, List.append_assoc, List.cons_append]

theorem not_mem_suggestionLine_iff (h : '\n' ∉ suggestion.label) :
    '\n' ∉ Session.suggestionLine suggestion ↔ '\n' ∉ suggestion.text := by
  simp [Session.suggestionLine, h]

/-- As many lines as suggestions are printed exactly if no text holds a line feed. -/
theorem length_lines_plainText_iff
    (hlabels : ∀ suggestion ∈ suggestions, '\n' ∉ suggestion.label) :
    (Text.lines (plainText suggestions)).length = suggestions.length ↔
      ∀ suggestion ∈ suggestions, '\n' ∉ suggestion.text := by
  have hlines : (∀ line ∈ suggestions.map Session.suggestionLine, '\n' ∉ line) ↔
      ∀ suggestion ∈ suggestions, '\n' ∉ suggestion.text := by
    rw [List.forall_mem_map]
    exact forall₂_congr fun suggestion hmem ↦ not_mem_suggestionLine_iff (hlabels suggestion hmem)
  rw [← hlines, plainText_eq, ← List.length_map Session.suggestionLine]
  constructor
  · exact Text.not_mem_of_length_lines
  · intro hnone
    rw [Text.lines_flatMap_of_not_mem hnone]

theorem lines_plainText (hlabels : ∀ suggestion ∈ suggestions, '\n' ∉ suggestion.label)
    (h : ∀ suggestion ∈ suggestions, '\n' ∉ suggestion.text) :
    Text.lines (plainText suggestions) = suggestions.map Session.suggestionLine := by
  rw [plainText_eq]
  apply Text.lines_flatMap_of_not_mem
  rw [List.forall_mem_map]
  exact fun suggestion hmem ↦
    (not_mem_suggestionLine_iff (hlabels suggestion hmem)).mpr (h suggestion hmem)

/-- What the two printed forms of some suggestions tell. -/
structure ArePrinted (suggestions : List Suggestion) (plain document : Text) : Prop where
  document : pairs? document = some (suggestions.map Suggestion.pair)
  plain_eq : plain = plainText suggestions
  not_mem_label : ∀ suggestion ∈ suggestions, '\t' ∉ suggestion.label ∧ '\n' ∉ suggestion.label
  /-- The lines are cut at their last tabs into the texts and labels exactly if no text holds a line
  feed. -/
  last_tab : (Text.lines plain).map cutAtLastTab = suggestions.map Suggestion.pair ↔
    ∀ suggestion ∈ suggestions, '\n' ∉ suggestion.text
  /-- Each line has one tab, and is cut there into text and label, exactly if no text holds a line
  feed or a tab. -/
  only_tab : (Text.lines plain).mapM cutAtTab? = some (suggestions.map Suggestion.pair) ↔
    ∀ suggestion ∈ suggestions, '\n' ∉ suggestion.text ∧ '\t' ∉ suggestion.text

theorem arePrinted_of_labels
    (hlabels : ∀ suggestion ∈ suggestions, '\t' ∉ suggestion.label ∧ '\n' ∉ suggestion.label) :
    ArePrinted suggestions (plainText suggestions)
      (Json.write (.array (suggestions.map Session.suggestionValue)) ++ ['\n']) := by
  have hfeeds : ∀ suggestion ∈ suggestions, '\n' ∉ suggestion.label :=
    fun suggestion hmem ↦ (hlabels suggestion hmem).2
  have hcount := length_lines_plainText_iff hfeeds
  refine ⟨pairs?_write suggestions, rfl, hlabels, ⟨fun hread ↦ ?_, fun hnone ↦ ?_⟩,
    ⟨fun hread ↦ ?_, fun hnone ↦ ?_⟩⟩
  · apply hcount.mp
    simpa using congrArg List.length hread
  · rw [lines_plainText hfeeds hnone, List.map_map]
    exact List.map_congr_left fun suggestion hmem ↦
      cutAtLastTab_suggestionLine (hlabels suggestion hmem).1
  · rw [Json.mapM_eq_some_iff] at hread
    have hnone := hcount.mp (by simpa using hread.length_eq)
    rw [lines_plainText hfeeds hnone, List.forall₂_map_left_iff, List.forall₂_map_right_iff,
      List.forall₂_same] at hread
    exact fun suggestion hmem ↦ ⟨hnone suggestion hmem,
      (cutAtTab?_suggestionLine_iff (hlabels suggestion hmem).1).mp (hread suggestion hmem)⟩
  · rw [lines_plainText hfeeds fun suggestion hmem ↦ (hnone suggestion hmem).1,
      Json.mapM_eq_some_iff, List.forall₂_map_left_iff, List.forall₂_map_right_iff,
      List.forall₂_same]
    exact fun suggestion hmem ↦
      (cutAtTab?_suggestionLine_iff (hlabels suggestion hmem).1).mpr (hnone suggestion hmem).2

theorem ArePrinted.not_mem_text {plain document : Text} (h : ArePrinted suggestions plain document)
    {cut : Text → Text × Text} (hcut : pairs? document = some ((Text.lines plain).map cut)) :
    ∀ suggestion ∈ suggestions, '\n' ∉ suggestion.text := by
  apply (length_lines_plainText_iff fun suggestion hmem ↦ (h.not_mem_label suggestion hmem).2).mp
  rw [h.document, h.plain_eq, Option.some_inj] at hcut
  simpa using (congrArg List.length hcut).symm

end Suggestion

/-! ## Runs -/

namespace Session

open Suggestion (ArePrinted pairs? cutAtLastTab plainText_eq arePrinted_of_labels)

variable {session : Session} {provider : Provider}

/-- The suggestions for a line after a session has loaded its definitions. -/
def offered (session : Session) (provider : Provider) (line : Text) : List Suggestion :=
  (provider.load session.files).value.provider.suggestions line

theorem exists_provider_of_code {command : Provider → Output × FileSystem}
    (h : (session.withProvider command).1.code = 0) :
    ∃ provider, session.provider = .ok provider := by
  unfold withProvider at h
  cases hprovider : session.provider with
  | error failure =>
    rw [hprovider] at h
    cases h
  | ok provider => exact ⟨provider, rfl⟩

theorem suggest_same (session : Session) (line : Text) (asJson : Bool) :
    let run (asJson : Bool) := session.withProvider fun provider ↦
      session.suggest provider line asJson
    (run asJson).1.code = (run false).1.code ∧ (run asJson).2 = (run false).2 := by
  unfold withProvider suggest withDefinitions
  dsimp only
  split
  · exact ⟨rfl, rfl⟩
  · split <;> exact ⟨rfl, rfl⟩

theorem arePrinted_suggest (h : (session.suggest provider line false).1.code = 0) :
    ArePrinted (session.offered provider line) (session.suggest provider line false).1.out
      (session.suggest provider line true).1.out := by
  have hprinted : ArePrinted (session.offered provider line) _ _ :=
    arePrinted_of_labels fun suggestion hmem ↦ Catalog.not_mem_label hmem
  rw [plainText_eq] at hprinted
  unfold suggest withDefinitions offered at *
  dsimp only at *
  split
  · rename_i error herror
    rw [herror] at h
    cases h
  · change ArePrinted _ _ (List.flatMap (· ++ ['\n']) [_])
    rw [List.flatMap_singleton]
    exact hprinted

variable {environment : Environment} {wording : Wording} {files : FileSystem}
  {words words' : List Text} {invocation : Invocation}

theorem runProgram_suggest {asJson : Bool} (h : Invocation.read environment words =
    .ok { invocation with command := some (.suggest line asJson) }) :
    runProgram environment wording files words =
      withProvider ⟨environment, invocation, wording, files⟩ fun provider ↦
        suggest ⟨environment, invocation, wording, files⟩ provider line asJson := by
  unfold runProgram
  rw [h]
  rfl

theorem runProgram_of_provider {asJson : Bool} {provider : Provider}
    (h : Invocation.read environment words =
      .ok { invocation with command := some (.suggest line asJson) })
    (hprovider : Session.provider ⟨environment, invocation, wording, files⟩ = .ok provider) :
    runProgram environment wording files words =
      suggest ⟨environment, invocation, wording, files⟩ provider line asJson := by
  rw [runProgram_suggest h, withProvider, hprovider]

/-- The plain form and the document for one line tell of the same suggestions. The lines of the
plain form give them back exactly if no name holds a line feed. -/
theorem arePrinted_of_runs
    (hplain : Invocation.read environment words =
      .ok { invocation with command := some (.suggest line false) })
    (hdocument : Invocation.read environment words' =
      .ok { invocation with command := some (.suggest line true) }) :
    let session : Session := ⟨environment, invocation, wording, files⟩
    let plain := runProgram environment wording files words
    let document := runProgram environment wording files words'
    document.1.code = plain.1.code ∧ document.2 = plain.2 ∧
      (plain.1.code = 0 → ∃ provider, session.provider = .ok provider ∧
        ArePrinted (session.offered provider line) plain.1.out document.1.out) := by
  intro session plain document
  have hplainRun : plain = session.withProvider _ := runProgram_suggest hplain
  have hdocumentRun : document = session.withProvider _ := runProgram_suggest hdocument
  obtain ⟨hcode, hfiles⟩ := session.suggest_same line true
  refine ⟨by rw [hplainRun, hdocumentRun, hcode], by rw [hplainRun, hdocumentRun, hfiles], ?_⟩
  intro hsuccess
  obtain ⟨provider, hprovider⟩ := exists_provider_of_code (hplainRun ▸ hsuccess)
  have hplainOf : plain = session.suggest provider line false :=
    runProgram_of_provider hplain hprovider
  have hdocumentOf : document = session.suggest provider line true :=
    runProgram_of_provider hdocument hprovider
  refine ⟨provider, hprovider, ?_⟩
  rw [hplainOf] at hsuccess ⊢
  rw [hdocumentOf]
  exact arePrinted_suggest hsuccess

def feedDocument : Bytes :=
  Utf8.encode ("<ThingDef><defName>A\nB</defName></ThingDef>" ++
    "<HediffDef><defName>Flu</defName></HediffDef>").toList

/-- The sample with this document. -/
def feedTree : FileSystem :=
  { Provider.sampleTree with
    nodes := Provider.sampleTree.nodes.dropLast ++
      [("a.xml".toList :: Provider.sampleDefs, ⟨.file feedDocument, ⟨0, 0⟩⟩)] }

def feedCatalog : Catalog :=
  ⟨[⟨"thing".toList, ["A\nB".toList]⟩, ⟨"hediff".toList, ["Flu".toList]⟩]⟩

def feedInvocation : Invocation :=
  ⟨some (Path.ofString "i"), some (Path.ofString "c.json"), none, .cooperative, .loose, false, none⟩

/-- The words that ask for the suggestions for a line in one of the forms. -/
def feedWords (line : String) (form : List String) : List Text :=
  (["--root", "i", "--cache-file", "c.json", "--mode", "cooperative", "suggest", line] ++
    form).map String.toList

theorem load_feedTree :
    ((Provider.sampleProvider Provider.besideCache .loose).load feedTree).value.provider =
      { Provider.sampleProvider Provider.besideCache .loose with definitions := feedCatalog } := by
  let found : List Definition :=
    [⟨"thing".toList, "A\nB".toList⟩, ⟨"hediff".toList, "Flu".toList⟩]
  have hsample : Provider.HasSample feedTree feedDocument := by
    refine ⟨?_, ?_, ?_, ?_, ?_⟩ <;> decide +kernel
  have hfound : Markup.extract .loose (Utf8.decodeLossy feedDocument) = found := by decide +kernel
  have hcatalog : Catalog.insertAll ∅ found = feedCatalog := by decide +kernel
  obtain ⟨after, hkeep⟩ : ∃ after, (Scan.keep feedTree (Path.ofString "i")
      (some Provider.besideCache) (Catalog.insertAll ∅ found)).value = (after, none) := by
    rw [hcatalog]
    exact ⟨_, Prod.ext rfl (by decide +kernel)⟩
  have hgenerate : ((Provider.sampleProvider Provider.besideCache .loose).generate feedTree).value =
      ⟨.ok ⟨1, none⟩, _, after⟩ := Provider.generate_sample hsample rfl rfl hfound hkeep
  have hmiss : (Provider.besideCache.load feedTree (Path.ofString "i")).value = none := by
    decide +kernel
  have hroot : (Provider.sampleProvider Provider.besideCache .loose).installRoot =
      some (Path.ofString "i") := rfl
  rw [Provider.load_of_miss hroot hmiss, hgenerate, hcatalog]

theorem offered_feedTree (line : Text) :
    offered ⟨⟨[]⟩, feedInvocation, .standard, feedTree⟩
        (Provider.sampleProvider Provider.besideCache .loose) line =
      feedCatalog.suggestions line := by
  unfold offered
  rw [load_feedTree]
  rfl

/-- The name without a line feed is read back from the lines. -/
theorem arePrinted_of_runs_feedTree :
    Invocation.read ⟨[]⟩ (feedWords "hediff*" []) =
      .ok { feedInvocation with command := some (.suggest "hediff*".toList false) } ∧
    Invocation.read ⟨[]⟩ (feedWords "hediff*" ["--json"]) =
      .ok { feedInvocation with command := some (.suggest "hediff*".toList true) } ∧
    (runProgram ⟨[]⟩ .standard feedTree (feedWords "hediff*" [])).1.code = 0 ∧
    (Text.lines (runProgram ⟨[]⟩ .standard feedTree (feedWords "hediff*" [])).1.out).map
      cutAtLastTab = [("Flu".toList, "hediff".toList)] := by
  have hplain : Invocation.read ⟨[]⟩ (feedWords "hediff*" []) =
      .ok { feedInvocation with command := some (.suggest "hediff*".toList false) } := by
    decide +kernel
  have hdocument : Invocation.read ⟨[]⟩ (feedWords "hediff*" ["--json"]) =
      .ok { feedInvocation with command := some (.suggest "hediff*".toList true) } := by
    decide +kernel
  have hcode : (runProgram ⟨[]⟩ .standard feedTree (feedWords "hediff*" [])).1.code = 0 := by
    decide +kernel
  have hoffered : (feedCatalog.suggestions "hediff*".toList).map Suggestion.pair =
      [("Flu".toList, "hediff".toList)] := by decide
  obtain ⟨provider, hprovider, hprinted⟩ := (arePrinted_of_runs hplain hdocument).2.2 hcode
  obtain rfl : Provider.sampleProvider Provider.besideCache .loose = provider :=
    Except.ok.inj hprovider
  refine ⟨hplain, hdocument, hcode, ?_⟩
  rw [hprinted.last_tab.mpr, offered_feedTree, hoffered]
  rw [offered_feedTree]
  decide

/-- The lines need not give back what the document gives, in whatever way they are cut. -/
theorem not_forall_exists_cut :
    ¬∀ (environment : Environment) (wording : Wording) (files : FileSystem)
      (words words' : List Text) (invocation : Invocation) (line : Text),
      Invocation.read environment words =
          .ok { invocation with command := some (.suggest line false) } →
        Invocation.read environment words' =
            .ok { invocation with command := some (.suggest line true) } →
          (runProgram environment wording files words).1.code = 0 →
            ∃ cut : Text → Text × Text,
              pairs? (runProgram environment wording files words').1.out =
                some ((Text.lines (runProgram environment wording files words).1.out).map cut) := by
  intro h
  have hplain : Invocation.read ⟨[]⟩ (feedWords "thing*" []) =
      .ok { feedInvocation with command := some (.suggest "thing*".toList false) } := by
    decide +kernel
  have hdocument : Invocation.read ⟨[]⟩ (feedWords "thing*" ["--json"]) =
      .ok { feedInvocation with command := some (.suggest "thing*".toList true) } := by
    decide +kernel
  have hcode : (runProgram ⟨[]⟩ .standard feedTree (feedWords "thing*" [])).1.code = 0 := by
    decide +kernel
  have hprovider : Session.provider ⟨⟨[]⟩, feedInvocation, .standard, feedTree⟩ =
      .ok (Provider.sampleProvider Provider.besideCache .loose) := rfl
  obtain ⟨cut, hcut⟩ := h _ _ _ _ _ _ _ hplain hdocument hcode
  rw [runProgram_of_provider hplain hprovider] at hcode hcut
  rw [runProgram_of_provider hdocument hprovider] at hcut
  have hnone := (arePrinted_suggest hcode).not_mem_text hcut
  rw [offered_feedTree] at hnone
  have hfeed : ¬∀ suggestion ∈ feedCatalog.suggestions "thing*".toList, '\n' ∉ suggestion.text := by
    decide
  exact hfeed hnone

end Session

end DefCatalog
