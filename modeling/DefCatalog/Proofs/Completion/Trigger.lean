import DefCatalog.Completion.Trigger
import DefCatalog.Proofs.Text.Pieces
import Mathlib.Data.List.TakeWhile

/-!
# The grammar of triggers

A line has a trigger if it ends in a word, a star and a filter. The filter may be empty, the word
may not. The star is the last one of the line, and the word goes back as far as it can, so that a
line can be cut in one way only. What stands before the word does not matter.
-/

namespace DefCatalog.Trigger

variable {line lead lead' word word' filter filter' before after : Text} {trigger : Trigger}
  {c : Char}

/-- Whether a character is an ASCII letter, an ASCII digit or an underscore. -/
def OfWords (c : Char) : Prop :=
  ('A' ≤ c ∧ c ≤ 'Z') ∨ ('a' ≤ c ∧ c ≤ 'z') ∨ ('0' ≤ c ∧ c ≤ '9') ∨ c = '_'

theorem isWordChar_iff : isWordChar c = true ↔ OfWords c := by
  unfold isWordChar OfWords Char.isAlphanum Char.isAlpha Char.isUpper Char.isLower Char.isDigit
  simp only [Bool.or_eq_true, Bool.and_eq_true, decide_eq_true_eq, beq_iff_eq, Char.le_def,
    or_assoc]

instance (c : Char) : Decidable (OfWords c) :=
  decidable_of_iff _ isWordChar_iff

theorem not_ofWords_star : ¬OfWords '*' := by
  decide

theorem all_isWordChar_iff {text : Text} :
    text.all isWordChar = true ↔ ∀ c ∈ text, OfWords c := by
  simp only [List.all_eq_true, isWordChar_iff]

/-- Whether a line ends in a word, a star and a filter, with the rest of it before them. -/
structure EndsIn (line lead word filter : Text) : Prop where
  line_eq : line = lead ++ (word ++ '*' :: filter)
  word_ne_nil : word ≠ []
  ofWords_word : ∀ c ∈ word, OfWords c
  ofWords_filter : ∀ c ∈ filter, OfWords c

/-- Whether a text is empty or ends in a character that cannot stand in a word. -/
def EndsOutside (text : Text) : Prop :=
  ∀ c ∈ text.getLast?, ¬OfWords c

theorem any_isWordChar_getLast?_iff {text : Text} :
    text.getLast?.any isWordChar = false ↔ EndsOutside text := by
  simp only [EndsOutside, Option.any_eq_false, Option.mem_def, ← isWordChar_iff,
    Bool.not_eq_true]

instance (text : Text) : Decidable (EndsOutside text) :=
  decidable_of_iff _ any_isWordChar_getLast?_iff

/-- Whether a line ends in a word, a star and a filter, and the word cannot be any longer. -/
structure Cuts (line lead word filter : Text) : Prop extends EndsIn line lead word filter where
  lead_end : EndsOutside lead

theorem EndsIn.star_not_mem (h : EndsIn line lead word filter) : '*' ∉ filter :=
  fun hstar ↦ not_ofWords_star (h.ofWords_filter '*' hstar)

theorem eq_of_append_star {before' after' : Text}
    (h : before ++ '*' :: after = before' ++ '*' :: after') (hafter : '*' ∉ after)
    (hafter' : '*' ∉ after') : before = before' ∧ after = after' := by
  have hbetween (between first second : Text) (hfirst : '*' ∉ first)
      (heq : '*' :: first = between ++ '*' :: second) : between = [] ∧ first = second := by
    cases between with
    | nil => exact ⟨rfl, (List.cons.inj heq).2⟩
    | cons c between =>
      rw [(List.cons.inj heq).2] at hfirst
      exact absurd (List.mem_append_right between List.mem_cons_self) hfirst
  cases List.append_eq_append_iff.mp h with
  | inl hlonger =>
    obtain ⟨between, rfl, heq⟩ := hlonger
    obtain ⟨rfl, rfl⟩ := hbetween between after after' hafter heq
    exact ⟨(List.append_nil before).symm, rfl⟩
  | inr hlonger =>
    obtain ⟨between, rfl, heq⟩ := hlonger
    obtain ⟨rfl, rfl⟩ := hbetween between after' after hafter' heq
    exact ⟨List.append_nil before', rfl⟩

theorem EndsIn.append_word_eq (h : EndsIn line lead word filter)
    (h' : EndsIn line lead' word' filter') : lead ++ word = lead' ++ word' ∧ filter = filter' := by
  apply eq_of_append_star _ h.star_not_mem h'.star_not_mem
  rw [List.append_assoc, List.append_assoc, ← h.line_eq, ← h'.line_eq]

theorem Cuts.length_le (h : Cuts line lead word filter) (h' : EndsIn line lead' word' filter') :
    lead.length ≤ lead'.length := by
  obtain ⟨hword, _⟩ := h.append_word_eq h'
  cases List.append_eq_append_iff.mp hword with
  | inl hlonger =>
    obtain ⟨more, rfl, _⟩ := hlonger
    rw [List.length_append]
    exact Nat.le_add_right _ _
  | inr hlonger =>
    obtain ⟨more, hlead, hmore⟩ := hlonger
    rcases List.eq_nil_or_concat more with rfl | ⟨front, c, rfl⟩
    · exact Nat.le_of_eq (congrArg List.length (hlead.trans (List.append_nil lead')))
    · -- the last character before the word would belong to the other word
      have hinside : OfWords c := h'.ofWords_word c (by simp [hmore])
      exact absurd hinside (h.lead_end c (by simp [hlead]))

theorem Cuts.unique (h : Cuts line lead word filter) (h' : Cuts line lead' word' filter') :
    lead' = lead ∧ word' = word ∧ filter' = filter := by
  obtain ⟨hword, hfilter⟩ := h'.append_word_eq h.toEndsIn
  have hlength := Nat.le_antisymm (h'.length_le h.toEndsIn) (h.length_le h'.toEndsIn)
  obtain ⟨hlead, hrest⟩ := List.append_inj hword hlength
  exact ⟨hlead, hrest, hfilter⟩

theorem span_word {rest : Text} (hword : ∀ c ∈ word, OfWords c)
    (hrest : ∀ c ∈ rest.head?, ¬OfWords c) :
    (word ++ rest).takeWhile isWordChar = word ∧ (word ++ rest).dropWhile isWordChar = rest := by
  have hinside := List.all_eq_true.mp (all_isWordChar_iff.mpr hword)
  apply Text.takeWhile_dropWhile_append hinside
  rintro c more rfl
  exact Bool.eq_false_iff.mpr (mt isWordChar_iff.mp (hrest c rfl))

theorem Cuts.ofLine?_eq (h : Cuts line lead word filter) :
    ofLine? line = some ⟨Text.lower word, filter, word ++ '*' :: filter⟩ := by
  have hreverse : line.reverse = filter.reverse ++ '*' :: (word.reverse ++ lead.reverse) := by
    simp [h.line_eq]
  have hofFilter : ∀ c ∈ filter.reverse, OfWords c :=
    fun c hc ↦ h.ofWords_filter c (List.mem_reverse.mp hc)
  have hofWord : ∀ c ∈ word.reverse, OfWords c :=
    fun c hc ↦ h.ofWords_word c (List.mem_reverse.mp hc)
  have hstarEnds : ∀ c ∈ ('*' :: (word.reverse ++ lead.reverse)).head?, ¬OfWords c :=
    fun c hc ↦ Option.some.inj hc ▸ not_ofWords_star
  have hleadEnds : ∀ c ∈ lead.reverse.head?, ¬OfWords c :=
    fun c hc ↦ h.lead_end c (by simpa using hc)
  obtain ⟨hfilter, hstar⟩ := span_word hofFilter hstarEnds
  obtain ⟨hword, _⟩ := span_word hofWord hleadEnds
  unfold ofLine? ofReversed?
  rw [hreverse, hfilter, hstar]
  simp [hword, h.word_ne_nil]

theorem ofWords_of_mem_takeWhile {text : Text} (h : c ∈ text.takeWhile isWordChar) : OfWords c :=
  isWordChar_iff.mp (List.mem_takeWhile_imp h)

theorem not_ofWords_of_mem_head? {text : Text} (h : c ∈ (text.dropWhile isWordChar).head?) :
    ¬OfWords c := by
  have hhead := List.head?_dropWhile_not isWordChar text
  rw [Option.mem_def.mp h] at hhead
  rw [← isWordChar_iff, hhead]
  exact Bool.false_ne_true

theorem exists_cuts_of_ofLine? (h : ofLine? line = some trigger) :
    ∃ lead word filter, Cuts line lead word filter := by
  unfold ofLine? ofReversed? at h
  dsimp only at h
  split at h
  · rename_i rest hrest
    split at h
    · cases h
    · rename_i hword
      have hreverse : line.reverse = line.reverse.takeWhile isWordChar ++
          '*' :: (rest.takeWhile isWordChar ++ rest.dropWhile isWordChar) := by
        rw [List.takeWhile_append_dropWhile, ← hrest, List.takeWhile_append_dropWhile]
      refine ⟨(rest.dropWhile isWordChar).reverse, (rest.takeWhile isWordChar).reverse,
        (line.reverse.takeWhile isWordChar).reverse, ⟨?_, ?_, ?_, ?_⟩, ?_⟩
      · have hline := congrArg List.reverse hreverse
        simp only [List.reverse_append, List.reverse_cons, List.reverse_reverse,
          List.append_assoc] at hline
        exact hline
      · simpa using hword
      · exact fun c hc ↦ ofWords_of_mem_takeWhile (List.mem_reverse.mp hc)
      · exact fun c hc ↦ ofWords_of_mem_takeWhile (List.mem_reverse.mp hc)
      · intro c hc
        rw [List.getLast?_reverse] at hc
        exact not_ofWords_of_mem_head? hc
  · cases h

/-- How a line is read that can be cut. -/
structure IsRead (line lead word filter : Text) : Prop where
  ofLine?_eq : ofLine? line =
    some { kind := Text.lower word, filter := filter, spelling := word ++ '*' :: filter }
  suffix : word ++ '*' :: filter <:+ line
  unique : ∀ lead' word' filter', Cuts line lead' word' filter' →
    lead' = lead ∧ word' = word ∧ filter' = filter
  /-- Of all words, stars and filters in which the line ends, these begin first. -/
  leftmost : ∀ lead' word' filter', EndsIn line lead' word' filter' → lead.length ≤ lead'.length
  star_not_mem : '*' ∉ filter
  /-- What stands before the word does not matter. -/
  elsewhere : ∀ other, EndsOutside other →
    ofLine? (other ++ (word ++ '*' :: filter)) = ofLine? line

theorem Cuts.isRead (h : Cuts line lead word filter) : IsRead line lead word filter where
  ofLine?_eq := h.ofLine?_eq
  suffix := ⟨lead, h.line_eq.symm⟩
  unique _ _ _ h' := h.unique h'
  leftmost _ _ _ h' := h.length_le h'
  star_not_mem := h.star_not_mem
  elsewhere other hother := by
    have hcut : Cuts (other ++ (word ++ '*' :: filter)) other word filter :=
      ⟨⟨rfl, h.word_ne_nil, h.ofWords_word, h.ofWords_filter⟩, hother⟩
    rw [hcut.ofLine?_eq, h.ofLine?_eq]

/-- A line cannot be cut at its last star if something else stands after it, or no word before
it. -/
theorem not_cuts_of_last_star (hline : line = before ++ '*' :: after) (hafter : '*' ∉ after)
    (hother : (∃ c ∈ after, ¬OfWords c) ∨ EndsOutside before) : ¬Cuts line lead word filter := by
  intro h
  obtain ⟨rfl, rfl⟩ : before = lead ++ word ∧ after = filter := by
    apply eq_of_append_star _ hafter h.star_not_mem
    rw [← hline, h.line_eq, List.append_assoc]
  cases hother with
  | inl houtside =>
    obtain ⟨c, hc, hnone⟩ := houtside
    exact hnone (h.ofWords_filter c hc)
  | inr hend =>
    obtain ⟨front, c, rfl⟩ := (List.eq_nil_or_concat word).resolve_left h.word_ne_nil
    exact hend c (by simp) (h.ofWords_word c (by simp))

/-- A line has a trigger if and only if it can be cut, and then in one way. The star of a trigger is
the last one of the line, so that there is none if the last star is not between a word and a
filter. -/
theorem ofLine?_grammar (line : Text) :
    ((ofLine? line).isSome = true ↔ ∃ lead word filter, Cuts line lead word filter) ∧
      (∀ lead word filter, Cuts line lead word filter → IsRead line lead word filter) ∧
      ∀ before after, line = before ++ '*' :: after → '*' ∉ after →
        (∃ c ∈ after, ¬OfWords c) ∨ EndsOutside before → ofLine? line = none := by
  have hsome : (ofLine? line).isSome = true ↔ ∃ lead word filter, Cuts line lead word filter := by
    constructor
    · intro h
      obtain ⟨trigger, htrigger⟩ := Option.isSome_iff_exists.mp h
      exact exists_cuts_of_ofLine? htrigger
    · intro h
      obtain ⟨lead, word, filter, hcut⟩ := h
      rw [hcut.ofLine?_eq]
      rfl
  refine ⟨hsome, fun lead word filter hcut ↦ hcut.isRead, ?_⟩
  intro before after hline hafter hother
  rw [← Option.not_isSome_iff_eq_none, hsome]
  rintro ⟨lead, word, filter, hcut⟩
  exact not_cuts_of_last_star hline hafter hother hcut

/-- A line with two stars is cut at the second. -/
theorem ofLine?_grammar_twoStars :
    Cuts "é a*Thing*st".toList "é a*".toList "Thing".toList "st".toList ∧
      ofLine? "é a*Thing*st".toList =
        some ⟨"thing".toList, "st".toList, "Thing*st".toList⟩ ∧
      ofLine? "a*st\n".toList = none := by
  have hcut : Cuts "é a*Thing*st".toList "é a*".toList "Thing".toList "st".toList :=
    ⟨⟨by decide, by decide, all_isWordChar_iff.mp (by decide),
      all_isWordChar_iff.mp (by decide)⟩, by decide⟩
  have hread := (ofLine?_grammar "é a*Thing*st".toList).2.1 _ _ _ hcut
  refine ⟨hcut, hread.ofLine?_eq.trans (by decide), ?_⟩
  exact (ofLine?_grammar "a*st\n".toList).2.2 "a".toList "st\n".toList (by decide) (by decide)
    (Or.inl ⟨'\n', by decide, by decide⟩)

end DefCatalog.Trigger
