import DefCatalog.Proofs.Markup.ForwardScan
import DefCatalog.Proofs.Markup.NameScan

/-!
# Clean documents

A document is clean if it spells the tags of the recognized kinds and the name attributes in full: no
longer name begins with a tag, and no longer key ends in the name key. Otherwise it may be malformed in
any way. Main statement: loose and strict matching find the same definitions in a clean document, in
the same order. By the first rule they do since both see the same tags at the same places, although a
strict one is one character longer; by the second rule since each tag has the same candidates.
-/

namespace DefCatalog.Markup

/-- Whether a document spells tags and name attributes in full. -/
structure IsClean (text : Text) : Prop where
  opening : ∀ kind ∈ DefKind.all, ∀ start < text.length, '<' :: kind.tag <+: text.drop start →
    (text[start + (kind.tag.length + 1)]?).any (fun c ↦ Text.isBlank c || c == '>') = true
  closing : ∀ kind ∈ DefKind.all, ∀ start < text.length, '<' :: '/' :: kind.tag <+: text.drop start →
    text[start + (kind.tag.length + 2)]? = some '>'
  name : ∀ key < text.length, nameLead <+: text.drop key →
    0 < key ∧ (text[key - 1]?).any Text.isBlank = true

instance (text : Text) : Decidable (IsClean text) :=
  decidable_of_iff (_ ∧ _ ∧ _)
    ⟨fun h ↦ ⟨h.1, h.2.1, h.2.2⟩, fun h ↦ ⟨h.opening, h.closing, h.name⟩⟩

variable {text lead : Text} {kind : DefKind} {start position : Nat} {tag : NamedTag}
  {found : List NamedTag} {matching matching' : Matching}

theorem lt_length_of_prefix_drop {c : Char} (h : c :: lead <+: text.drop start) :
    start < text.length := by
  have hlength := h.length_le
  rw [List.length_cons, List.length_drop] at hlength
  omega

theorem append_singleton_prefix_drop_iff {c : Char} :
    lead ++ [c] <+: text.drop start ↔
      lead <+: text.drop start ∧ text[start + lead.length]? = some c := by
  rw [← List.getElem?_drop]
  constructor
  · rintro ⟨rest, hrest⟩
    rw [← hrest, List.append_assoc]
    exact ⟨List.prefix_append _ _, by simp⟩
  · rintro ⟨⟨rest, hrest⟩, hmark⟩
    rw [← hrest, List.getElem?_append_right (Nat.le_refl _), Nat.sub_self] at hmark
    cases rest with
    | nil => cases hmark
    | cons d rest =>
      cases hmark
      exact ⟨rest, by rw [← hrest, List.append_assoc, List.singleton_append]⟩

namespace IsClean

theorem opening_occursAt_iff (h : IsClean text) (hkind : kind ∈ DefKind.all) :
    (kind.opening .strict).OccursAt text start ↔ (kind.opening .loose).OccursAt text start := by
  constructor
  · intro hstrict
    exact ⟨hstrict.1, fun hbounded ↦ nomatch hbounded⟩
  · rintro ⟨hlead, _⟩
    refine ⟨hlead, fun _ ↦ ?_⟩
    have hend := h.opening kind hkind start (lt_length_of_prefix_drop hlead) hlead
    change (text[start + (kind.tag.length + 1)]?).any TagPattern.isTagEnd = true
    cases hmark : text[start + (kind.tag.length + 1)]? with
    | none =>
      rw [hmark] at hend
      cases hend
    | some c =>
      rw [hmark, Option.any_some] at hend
      simp [TagPattern.isTagEnd, hend]

theorem closing_occursAt_iff (h : IsClean text) (hkind : kind ∈ DefKind.all) :
    (kind.closing .strict).OccursAt text start ↔ (kind.closing .loose).OccursAt text start := by
  have hlead : (kind.closing .loose).lead = (kind.closing .strict).lead ++ ['>'] := rfl
  have hlength : (kind.closing .strict).lead.length = kind.tag.length + 2 := rfl
  unfold TagPattern.OccursAt
  rw [hlead, append_singleton_prefix_drop_iff, hlength]
  constructor
  · rintro ⟨hstands, _⟩
    refine ⟨⟨hstands, ?_⟩, fun hbounded ↦ nomatch hbounded⟩
    exact h.closing kind hkind start (lt_length_of_prefix_drop hstands) hstands
  · rintro ⟨⟨hstands, hmark⟩, _⟩
    refine ⟨hstands, fun _ ↦ ?_⟩
    rw [hmark]
    rfl

theorem opensBefore_iff (h : IsClean text) (hkind : kind ∈ DefKind.all) :
    kind.OpensBefore .strict text position ↔ kind.OpensBefore .loose text position := by
  unfold DefKind.OpensBefore
  simp only [h.opening_occursAt_iff hkind, h.closing_occursAt_iff hkind]

theorem definitionAt?_eq (h : IsClean text) (position : Nat) :
    definitionAt? .strict text position = definitionAt? .loose text position := by
  unfold definitionAt?
  rw [valueAt?_eq_map_taggedName?]
  cases hname : taggedName? (text.drop position) with
  | none => rfl
  | some found =>
    have hmark : text[position]? = some '<' := by
      have hfound : taggedName? (text.drop position) = some (found.1, found.2) := hname
      have hhead := (head_of_taggedName? hfound).1
      rwa [List.getElem?_drop] at hhead
    rw [Option.map_some, Option.bind_some, Option.bind_some, fileUnder?, fileUnder?]
    congr 1
    apply List.find?_congr
    intro kind hkind
    rw [decide_eq_decide, DefKind.isOpenAfter_take_iff hmark, DefKind.isOpenAfter_take_iff hmark]
    exact h.opensBefore_iff hkind

theorem isCandidate_iff (h : IsClean text) (hkind : kind ∈ DefKind.all) :
    IsCandidate .strict kind text tag ↔ IsCandidate .loose kind text tag := by
  constructor
  · intro hstrict
    exact { hstrict with separate := fun hloose ↦ nomatch hloose }
  · intro hloose
    have hlead : nameLead <+: text.drop tag.key :=
      (List.prefix_append _ _).trans hloose.quoted
    refine { hloose with separate := fun _ ↦ ⟨?_, ?_⟩ }
    · have hend := h.opening kind hkind tag.start hloose.start_lt hloose.spelled
      -- the spelling is not followed by the end of the tag, since an attribute follows
      have hopen : text[tag.start + (kind.tag.length + 1)]? ≠ some '>' := by
        rcases Nat.lt_or_eq_of_le hloose.behind with hlt | heq
        · exact hloose.inside _ (Nat.le_refl _) hlt
        · obtain ⟨rest, hrest⟩ := hlead
          have hletter := congrArg List.head? hrest
          rw [List.head?_drop, ← heq] at hletter
          rw [← hletter]
          simp [nameLead, nameKey]
      cases hmark : text[tag.start + (kind.tag.length + 1)]? with
      | none =>
        rw [hmark] at hend
        cases hend
      | some c =>
        rw [hmark] at hend hopen
        simp_all
    · exact (h.name tag.key (lt_length_of_prefix_drop hlead) hlead).2

end IsClean

/-- The scan for names depends on the candidates only. -/
theorem ScansFrom.congr
    (h : ∀ tag, IsCandidate matching kind text tag ↔ IsCandidate matching' kind text tag)
    (hscan : ScansFrom matching kind text position found) :
    ScansFrom matching' kind text position found := by
  induction hscan with
  | done hnone => exact .done fun tag htag ↦ hnone tag ((h tag).mpr htag)
  | found hcandidate hposition hfirst hlast hlater ih =>
    exact .found ((h _).mp hcandidate) hposition (fun other hother ↦ hfirst other ((h other).mpr hother))
      (fun other hother ↦ hlast other ((h other).mpr hother)) ih

theorem IsClean.tagNames_eq (h : IsClean text) (hkind : kind ∈ DefKind.all) :
    tagNames .strict kind text = tagNames .loose kind text := by
  obtain ⟨found, hstrict, hnames⟩ := exists_scansFrom .strict kind text 0
  obtain ⟨found', hloose, hnames'⟩ := exists_scansFrom .loose kind text 0
  have hsame := hstrict.congr fun _ ↦ h.isCandidate_iff hkind
  rw [List.drop_zero] at hnames hnames'
  rw [hnames, hnames', hloose.unique hsame]

/-- In a clean document, however malformed it is otherwise, both ways of matching find the same
definitions in the same order. -/
theorem extract_strict_eq_loose (h : IsClean text) : extract .strict text = extract .loose text := by
  have htagged : taggedDefinitions .strict text = taggedDefinitions .loose text := by
    have hscan (matching : Matching) : taggedDefinitions matching text =
        (List.range text.length).filterMap (definitionAt? matching text) := by
      rw [taggedDefinitions_eq_filterMap_taggedNames]
      exact filterMap_taggedNames text fun position ↦
        fileUnder? fun kind ↦ kind.IsOpenAfter matching (text.take position)
    rw [hscan, hscan]
    exact List.filterMap_congr fun position _ ↦ h.definitionAt?_eq position
  have hnamed : namedDefinitions .strict text = namedDefinitions .loose text := by
    unfold namedDefinitions
    exact List.flatMap_congr fun kind hkind ↦ by rw [h.tagNames_eq hkind]
  rw [extract, htagged, hnamed, ← extract]

/-- A clean document in which a quote and the closing tags are missing. -/
def runawaySample : Text :=
  "<ThingDef Name=\"A\"><JobDef Name=\"B><defName>C</defName> Name=\"".toList

theorem extract_strict_runawaySample :
    IsClean runawaySample ∧
      extract .strict runawaySample = extract .loose runawaySample ∧
      extract .loose runawaySample =
        [⟨"thing".toList, "C".toList⟩, ⟨"thing".toList, "A".toList⟩,
          ⟨"job".toList, "B><defName>C</defName> Name=".toList⟩] := by
  have hclean : IsClean runawaySample := by decide +kernel
  exact ⟨hclean, extract_strict_eq_loose hclean, by decide +kernel⟩

end DefCatalog.Markup
