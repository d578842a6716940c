import DefCatalog.Completion.Suggestion
import DefCatalog.Proofs.Completion.Lookup
import DefCatalog.Proofs.Completion.Trigger

/-!
# What is suggested

A line that is cut into a word and a filter is answered with the first names under the word that
match the filter. The case of word and filter does not matter, and a longer filter never brings a
name that the shorter one does not match.
-/

namespace DefCatalog

/-- What an editor shows of a suggestion. -/
def Suggestion.shown (suggestion : Suggestion) : Text × Text × Text :=
  (suggestion.text, suggestion.label, suggestion.description)

namespace Trigger

variable {line lead word filter more : Text} {c : Char}

theorem OfWords.toNat_lt (h : OfWords c) : c.toNat < 0x80 := by
  have hbelow {last : Char} (hlast : last.toNat < 0x80) (hc : c ≤ last) : c.toNat < 0x80 :=
    Nat.lt_of_le_of_lt (UInt32.le_iff_toNat_le.mp hc) hlast
  obtain ⟨_, hc⟩ | ⟨_, hc⟩ | ⟨_, hc⟩ | rfl := h
  · exact hbelow (by decide) hc
  · exact hbelow (by decide) hc
  · exact hbelow (by decide) hc
  · decide

theorem Cuts.lower_word (h : Cuts line lead word filter) :
    Text.lower word = word.map Char.toLower :=
  Text.lower_of_ascii fun c hc ↦ (h.ofWords_word c hc).toNat_lt

theorem Cuts.lower_filter (h : Cuts line lead word filter) :
    Text.lower filter = filter.map Char.toLower :=
  Text.lower_of_ascii fun c hc ↦ (h.ofWords_filter c hc).toNat_lt

theorem Cuts.append (h : Cuts line lead word filter) (hmore : ∀ c ∈ more, OfWords c) :
    Cuts (line ++ more) lead word (filter ++ more) where
  line_eq := by
    rw [h.line_eq]
    simp
  word_ne_nil := h.word_ne_nil
  ofWords_word := h.ofWords_word
  ofWords_filter := by
    intro c hc
    exact (List.mem_append.mp hc).elim (h.ofWords_filter c) (hmore c)
  lead_end := h.lead_end

end Trigger

namespace Catalog

open Trigger (Cuts OfWords)

variable {catalog : Catalog} {line lead word filter line' lead' word' filter' more : Text}
  {entry : Entry}

/-- What is suggested for a line that is cut, when the given names are filed under its word. -/
structure Offers (names : List Text) (line lead word filter : Text) (offered : List Suggestion) :
    Prop where
  /-- The texts are the matches among the names that are looked at, and there are fifty of them or
  no other name matches. -/
  texts_eq : ∃ front rest, names = front ++ rest ∧
    offered.map Suggestion.text = front.filter (Matches filter ·) ∧
      (offered.length = 50 ∨ ∀ name ∈ rest, ¬Matches filter name)
  length_eq : offered.length = min 50 (names.countP (Matches filter ·))
  nodup_texts : (offered.map Suggestion.text).Nodup
  label_eq : ∀ suggestion ∈ offered, suggestion.label = Text.lower word
  description_eq : ∀ suggestion ∈ offered,
    suggestion.description = suggestion.label ++ ": ".toList ++ suggestion.text
  replaced_eq : ∀ suggestion ∈ offered, suggestion.replaced = word ++ '*' :: filter ∧
    line = lead ++ suggestion.replaced

/-- How a catalog answers lines. -/
structure AnswersLines (catalog : Catalog) : Prop where
  exists_cuts : ∀ line, catalog.suggestions line ≠ [] → ∃ lead word filter,
    Cuts line lead word filter ∧ ∃ entry ∈ catalog.entries, entry.kind = Text.lower word
  offers : ∀ line lead word filter, Cuts line lead word filter →
    ∀ entry ∈ catalog.entries, entry.kind = Text.lower word →
      Offers entry.names line lead word filter (catalog.suggestions line)
  /-- Lines that differ in case, and in anything before the word, are answered alike. -/
  shown_eq : ∀ line lead word filter line' lead' word' filter', Cuts line lead word filter →
    Cuts line' lead' word' filter' → word.map Char.toLower = word'.map Char.toLower →
      filter.map Char.toLower = filter'.map Char.toLower →
        (catalog.suggestions line).map Suggestion.shown =
          (catalog.suggestions line').map Suggestion.shown
  /-- A longer filter matches no other names. If all matches of the shorter one are suggested, those
  of the longer one are among them in the same order. -/
  narrows : ∀ line lead word filter more, Cuts line lead word filter → (∀ c ∈ more, OfWords c) →
    ∀ entry ∈ catalog.entries, entry.kind = Text.lower word →
      (∀ name, Matches (filter ++ more) name → Matches filter name) ∧
        (entry.names.countP (Matches filter ·) ≤ 50 →
          ((catalog.suggestions (line ++ more)).map Suggestion.text).Sublist
            ((catalog.suggestions line).map Suggestion.text))

theorem hasKind_iff {kind : Text} :
    catalog.hasKind kind = true ↔ ∃ entry ∈ catalog.entries, entry.kind = Text.lower kind := by
  simp [hasKind]

/-- A line that is cut asks for the names under its word that match its filter. -/
theorem suggestions_of_cuts (catalog : Catalog) (h : Cuts line lead word filter) :
    catalog.suggestions line =
      if catalog.hasKind word then
        (catalog.lookup word filter).map
          (Suggestion.ofName ⟨Text.lower word, filter, word ++ '*' :: filter⟩)
      else [] := by
  have hkind : catalog.hasKind (Text.lower word) = catalog.hasKind word := by
    unfold hasKind
    rw [Text.lower_lower]
  have hlookup : catalog.lookup (Text.lower word) filter = catalog.lookup word filter := by
    unfold lookup names
    rw [Text.lower_lower]
  unfold suggestions
  rw [h.ofLine?_eq]
  dsimp only
  rw [hkind, hlookup]

theorem exists_cuts_of_suggestions (h : catalog.suggestions line ≠ []) : ∃ lead word filter,
    Cuts line lead word filter ∧ ∃ entry ∈ catalog.entries, entry.kind = Text.lower word := by
  cases hline : Trigger.ofLine? line with
  | none =>
    unfold suggestions at h
    rw [hline] at h
    exact absurd rfl h
  | some trigger =>
    obtain ⟨lead, word, filter, hcut⟩ := Trigger.exists_cuts_of_ofLine? hline
    refine ⟨lead, word, filter, hcut, hasKind_iff.mp ?_⟩
    by_contra hnone
    rw [suggestions_of_cuts catalog hcut, if_neg hnone] at h
    exact h rfl

/-- The suggestions for a line whose word is the key of an entry. -/
theorem WellFiled.suggestions_eq (h : catalog.WellFiled) (hcut : Cuts line lead word filter)
    (hentry : entry ∈ catalog.entries) (hkind : entry.kind = Text.lower word) :
    catalog.suggestions line = ((entry.names.filter (Matches filter ·)).take 50).map
      (Suggestion.ofName ⟨Text.lower word, filter, word ++ '*' :: filter⟩) := by
  have hnames : catalog.names word = entry.names :=
    namesIn_of_mem h.nodup_kinds hentry hkind
  rw [suggestions_of_cuts catalog hcut, if_pos (hasKind_iff.mpr ⟨entry, hentry, hkind⟩), lookup_eq,
    hnames]

theorem map_text_ofName (trigger : Trigger) (names : List Text) :
    (names.map (Suggestion.ofName trigger)).map Suggestion.text = names := by
  rw [List.map_map]
  exact List.map_id names

theorem WellFiled.offers (h : catalog.WellFiled) (hcut : Cuts line lead word filter)
    (hentry : entry ∈ catalog.entries) (hkind : entry.kind = Text.lower word) :
    Offers entry.names line lead word filter (catalog.suggestions line) := by
  have hnodup := (h.entry_of_mem entry hentry).nodup_names
  rw [h.suggestions_eq hcut hentry hkind]
  constructor
  case texts_eq =>
    obtain ⟨front, rest, hnames, htake, hrest⟩ :=
      exists_take_filter_eq (Matches filter ·) 50 entry.names
    refine ⟨front, rest, hnames, ?_, ?_⟩
    · rw [map_text_ofName, htake]
    · rw [List.length_map, htake]
      exact hrest.imp_right fun hnone name hname ↦ of_decide_eq_false (hnone name hname)
  case length_eq =>
    rw [List.length_map, List.length_take, List.countP_eq_length_filter]
  case nodup_texts =>
    rw [map_text_ofName]
    exact (hnodup.filter _).sublist (List.take_sublist _ _)
  case label_eq =>
    intro suggestion hmem
    obtain ⟨name, _, rfl⟩ := List.mem_map.mp hmem
    rfl
  case description_eq =>
    intro suggestion hmem
    obtain ⟨name, _, rfl⟩ := List.mem_map.mp hmem
    rfl
  case replaced_eq =>
    intro suggestion hmem
    obtain ⟨name, _, rfl⟩ := List.mem_map.mp hmem
    exact ⟨rfl, hcut.line_eq⟩

/-- What is shown depends on the word and the filter only through their lower-case forms. -/
theorem shown_suggestions_eq (catalog : Catalog) (hcut : Cuts line lead word filter)
    (hcut' : Cuts line' lead' word' filter') (hword : Text.lower word = Text.lower word')
    (hfilter : Text.lower filter = Text.lower filter') :
    (catalog.suggestions line).map Suggestion.shown =
      (catalog.suggestions line').map Suggestion.shown := by
  have hkind : catalog.hasKind word = catalog.hasKind word' := by
    unfold hasKind
    rw [hword]
  have hlookup : catalog.lookup word filter = catalog.lookup word' filter' := by
    unfold lookup names
    rw [hword, hfilter]
  rw [suggestions_of_cuts catalog hcut, suggestions_of_cuts catalog hcut', hkind, hlookup]
  split
  · rw [List.map_map, List.map_map]
    apply List.map_congr_left
    intro name _
    simp [Suggestion.shown, Suggestion.ofName, hword]
  · rfl

theorem matches_of_append {name : Text} (hcut : Cuts line lead word filter)
    (hmore : ∀ c ∈ more, OfWords c) (h : Matches (filter ++ more) name) : Matches filter name := by
  have hlower : Text.lower (filter ++ more) = Text.lower filter ++ more.map Char.toLower := by
    rw [(hcut.append hmore).lower_filter, hcut.lower_filter, List.map_append]
  unfold Matches at h ⊢
  rw [hlower] at h
  exact (List.prefix_append _ _).isInfix.trans h

theorem WellFiled.texts_sublist (h : catalog.WellFiled) (hcut : Cuts line lead word filter)
    (hmore : ∀ c ∈ more, OfWords c) (hentry : entry ∈ catalog.entries)
    (hkind : entry.kind = Text.lower word) (hcount : entry.names.countP (Matches filter ·) ≤ 50) :
    ((catalog.suggestions (line ++ more)).map Suggestion.text).Sublist
      ((catalog.suggestions line).map Suggestion.text) := by
  have hfewer : (entry.names.filter (Matches (filter ++ more) ·)).Sublist
      (entry.names.filter (Matches filter ·)) := by
    apply List.monotone_filter_right
    intro name hname
    exact decide_eq_true (matches_of_append hcut hmore (of_decide_eq_true hname))
  rw [h.suggestions_eq (hcut.append hmore) hentry hkind, h.suggestions_eq hcut hentry hkind,
    map_text_ofName, map_text_ofName]
  rw [List.countP_eq_length_filter] at hcount
  rw [List.take_of_length_le hcount]
  exact (List.take_sublist _ _).trans hfewer

theorem WellFiled.answersLines (h : catalog.WellFiled) : catalog.AnswersLines where
  exists_cuts _ hline := exists_cuts_of_suggestions hline
  offers _ _ _ _ hcut _ hentry hkind := h.offers hcut hentry hkind
  shown_eq _ _ _ _ _ _ _ _ hcut hcut' hword hfilter := by
    apply shown_suggestions_eq catalog hcut hcut'
    · rw [hcut.lower_word, hcut'.lower_word, hword]
    · rw [hcut.lower_filter, hcut'.lower_filter, hfilter]
  narrows _ _ _ _ _ hcut hmore _ hentry hkind :=
    ⟨fun _ ↦ matches_of_append hcut hmore, h.texts_sublist hcut hmore hentry hkind⟩

end Catalog

/-- Whatever was done to a register, lines are answered from what is filed in it. -/
theorem Register.answersLines_run (changes : List Register.Change) :
    (Register.run changes).toCatalog.AnswersLines :=
  (Register.filledWith_history changes).wellFiled.answersLines

end DefCatalog
