import DefCatalog.Proofs.Markup.NamedTags
import Mathlib.Data.List.Nodup

/-!
# Names that loose matching hides

In loose matching every key that ends in the name key counts, and the last candidate in a tag is
its name. So the name attribute of an element is reported unless another candidate follows it in the
tag, or an earlier tag has made the search run past this one: a value that ends like the beginning
of a name attribute, at the end of a tag, makes the search go on behind the next quote of the
document, and everything up to there is passed over.
-/

namespace DefCatalog.Markup

/-- A part of a written document. -/
inductive Piece where
  | text (chunk : Text) (plain : '<' ∉ chunk)
  /-- The tag at the beginning of an element, which may also be its end. -/
  | opening (tag : Tag) (alone : Bool)
  | closing (tag : Tag)

namespace Piece

/-- The written form. -/
def render : Piece → Text
  | text chunk _ => chunk
  | opening tag alone => tag.render alone
  | closing tag => tag.closing

/-- Whether a quote stands in the piece. -/
def hasQuote (piece : Piece) : Bool :=
  '"' ∈ piece.render

theorem exists_split_of_hasQuote {piece : Piece} (h : piece.hasQuote = true) :
    ∃ front rest, piece.render = front ++ '"' :: rest ∧ '"' ∉ front ∧ '<' ∉ rest := by
  obtain ⟨front, rest, hsplit, hfront⟩ := List.eq_append_cons_of_mem (of_decide_eq_true h)
  refine ⟨front, rest, hsplit, hfront, ?_⟩
  -- a piece that holds a `<` begins with it and holds no other one
  have hplain : ∀ more, piece.render = '<' :: more → '<' ∉ more → '<' ∉ rest := by
    intro more hrender hmore hmem
    rw [hrender] at hsplit
    cases front with
    | nil => cases hsplit
    | cons c front =>
      rw [List.cons_append, List.cons.injEq] at hsplit
      rw [hsplit.2] at hmore
      exact hmore (List.mem_append_right _ (List.mem_cons_of_mem _ hmem))
  cases piece with
  | text chunk plain =>
    intro hmem
    rw [render] at hsplit
    rw [hsplit] at plain
    exact plain (List.mem_append_right _ (List.mem_cons_of_mem _ hmem))
  | opening tag alone => exact hplain _ rfl (tag.not_mem_tail_render alone)
  | closing tag => exact hplain _ rfl tag.not_mem_tail_closing

end Piece

/-- The pieces of a document, in order. -/
def Content.pieces : Content → List Piece
  | nothing => []
  | text chunk plain rest => .text chunk plain :: rest.pieces
  | element tag content rest =>
    .opening tag false :: (content.pieces ++ .closing tag :: rest.pieces)
  | single tag rest => .opening tag true :: rest.pieces

theorem Content.flatMap_pieces (doc : Content) : doc.pieces.flatMap Piece.render = doc.render := by
  induction doc with
  | nothing => rfl
  | text chunk plain rest ih => rw [pieces, List.flatMap_cons, ih]; rfl
  | element tag content rest ihcontent ihrest =>
    rw [pieces, List.flatMap_cons, List.flatMap_append, List.flatMap_cons, ihcontent, ihrest]
    rfl
  | single tag rest ih => rw [pieces, List.flatMap_cons, ih]; rfl

/-! ## The tags that the search looks at -/

/-- A tag that the search looks at, with the pieces behind it. -/
structure Visit where
  tag : Tag
  alone : Bool
  back : List Piece

namespace Visit

/-- The text behind the attributes of the tag. -/
def behind (visit : Visit) : Text :=
  visit.tag.gap ++ (Tag.ending visit.alone ++ visit.back.flatMap Piece.render)

/-- The names that the search meets in the tag, in order. -/
def candidates (visit : Visit) : List Text :=
  (nameCandidates .loose visit.tag.attributes visit.behind).map Prod.fst

/-- Whether the last attribute makes the search leave the tag for the next quote. -/
def leaves (visit : Visit) : Bool :=
  runsAway .loose visit.tag.attributes && visit.back.any Piece.hasQuote

end Visit

/-- Whether the search for a kind is on its way to a quote behind a piece, if it was on such a way
before it or not. -/
def passesNext (kind : DefKind) : Bool → Piece → List Piece → Bool
  | true, piece, _ => !piece.hasQuote
  | false, .opening tag alone, back => tag.isOf .loose kind && Visit.leaves ⟨tag, alone, back⟩
  | false, .text _ _, _ | false, .closing _, _ => false

/-- Whether the search for a kind is on its way to a quote behind the first pieces of a document. -/
def passesOver (kind : DefKind) (passes : Bool) : (front back : List Piece) → Bool
  | [], _ => passes
  | piece :: front, back =>
    passesOver kind (passesNext kind passes piece (front ++ back)) front back

/-- The visit of the search for a kind at the first of some pieces. -/
def visitAt? (kind : DefKind) : Bool → Piece → List Piece → Option Visit
  | false, .opening tag alone, back => if tag.isOf .loose kind then some ⟨tag, alone, back⟩ else none
  | false, .text _ _, _ | false, .closing _, _ | true, _, _ => none

/-- The tags that the search for a kind looks at. On its way to a quote it passes over every piece
up to the one with the quote. -/
def visits (kind : DefKind) (passes : Bool) : List Piece → List Visit
  | [] => []
  | piece :: back =>
    (visitAt? kind passes piece back).toList ++ visits kind (passesNext kind passes piece back) back

theorem mem_flatMap_render_iff {pieces : List Piece} :
    '"' ∈ pieces.flatMap Piece.render ↔ pieces.any Piece.hasQuote = true := by
  simp [Piece.hasQuote]

theorem isSome_quotedValue?_flatMap {front : Text} (pieces : List Piece) (hne : front ≠ [])
    (hfront : '"' ∉ front) :
    (quotedValue? (front ++ pieces.flatMap Piece.render)).isSome = pieces.any Piece.hasQuote := by
  rw [Bool.eq_iff_iff, ← mem_flatMap_render_iff, Option.isSome_iff_exists]
  constructor
  · rintro ⟨⟨value, after⟩, hfound⟩
    obtain ⟨_, _, hsplit⟩ := quotedValue?_eq_some_iff.mp hfound
    have hmem : '"' ∈ front ++ pieces.flatMap Piece.render := by
      rw [← hsplit]
      exact List.mem_append_right _ List.mem_cons_self
    exact (List.mem_append.mp hmem).resolve_left hfront
  · intro hmem
    obtain ⟨lead, rest, hsplit, hlead⟩ := List.eq_append_cons_of_mem hmem
    refine ⟨(front ++ lead, rest), quotedValue?_eq_some_iff.mpr ⟨by simp [hne], ?_, ?_⟩⟩
    · simp [hfront, hlead]
    · rw [hsplit, List.append_assoc]

/-- The last candidate in a tag is its stray name, if the search leaves the tag. -/
theorem Visit.getLast?_candidates (visit : Visit) :
    visit.candidates.getLast? =
      ((visit.tag.strayName? .loose visit.alone (visit.back.flatMap Piece.render)).map
        Prod.fst).or (visit.tag.names .loose).getLast? := by
  calc
    visit.candidates.getLast? = (visit.tag.nameCandidates .loose visit.alone
        (visit.back.flatMap Piece.render)).getLast?.map Prod.fst := List.getLast?_map
    _ = ((visit.tag.strayName? .loose visit.alone (visit.back.flatMap Piece.render)).map
          Prod.fst).or ((nameCandidates .loose visit.tag.attributes []).getLast?.map Prod.fst) := by
      rw [Tag.getLast?_nameCandidates, Option.map_or, Option.map_map]
      rfl
    _ = ((visit.tag.strayName? .loose visit.alone (visit.back.flatMap Piece.render)).map
          Prod.fst).or (visit.tag.names .loose).getLast? := by
      rw [Tag.names, List.getLast?_map]

theorem Tag.not_mem_gap_append_ending (tag : Tag) (alone : Bool) : '"' ∉ tag.gap ++ ending alone := by
  have hgap : '"' ∉ tag.gap := by
    intro hmem
    cases List.all_eq_true.mp tag.gap_blank _ hmem
  cases alone <;> simp [ending, hgap]

theorem Visit.leaves_eq (visit : Visit) :
    visit.leaves =
      (visit.tag.strayName? .loose visit.alone (visit.back.flatMap Piece.render)).isSome := by
  have hne : visit.tag.gap ++ Tag.ending visit.alone ≠ [] := by
    cases visit.alone <;> simp [Tag.ending]
  have hquoted := isSome_quotedValue?_flatMap visit.back hne
    (visit.tag.not_mem_gap_append_ending visit.alone)
  unfold leaves Tag.strayName?
  rw [← hquoted, List.append_assoc]
  cases runsAway .loose visit.tag.attributes <;> rfl

/-- Whether the search in some pieces finds the last candidate of each tag that it looks at, both from
their beginning and on the way to the end of a value that began before them. -/
structure FindsVisits (kind : DefKind) (pieces : List Piece) : Prop where
  stay : tagNames .loose kind (pieces.flatMap Piece.render) =
    (visits kind false pieces).filterMap (·.candidates.getLast?)
  leave : ∀ front value after, '"' ∉ front →
    quotedValue? (front ++ pieces.flatMap Piece.render) = some (value, after) →
      tagNames .loose kind after = (visits kind true pieces).filterMap (·.candidates.getLast?)

namespace FindsVisits

variable {kind : DefKind} {back : List Piece}

theorem nil : FindsVisits kind [] where
  stay := by
    rw [List.flatMap_nil, tagNames]
    rfl
  leave front value after hfront hfound := by
    obtain ⟨_, _, hsplit⟩ := quotedValue?_eq_some_iff.mp hfound
    rw [List.flatMap_nil, List.append_nil] at hsplit
    rw [← hsplit] at hfront
    exact absurd (List.mem_append_right _ List.mem_cons_self) hfront

theorem stay_opening (h : FindsVisits kind back) (tag : Tag) (alone : Bool) :
    tagNames .loose kind (tag.render alone ++ back.flatMap Piece.render) =
      (visits kind false (.opening tag alone :: back)).filterMap (·.candidates.getLast?) := by
  rw [Tag.tagNames_render, visits, visitAt?, passesNext, Visit.leaves_eq]
  split
  · rename_i hisOf
    rw [hisOf, Bool.true_and, Option.toList_some, List.singleton_append, List.filterMap_cons,
      Visit.getLast?_candidates]
    dsimp only
    cases hstray : tag.strayName? .loose alone (back.flatMap Piece.render) with
    | none =>
      rw [Option.map_none, Option.none_or, h.stay]
      cases (tag.names .loose).getLast? <;> rfl
    | some found =>
      unfold Tag.strayName? at hstray
      split at hstray
      · rw [← List.append_assoc] at hstray
        have hafter := h.leave _ _ _ (tag.not_mem_gap_append_ending alone) hstray
        rw [Option.map_some, Option.some_or]
        exact congrArg (found.1 :: ·) hafter
      · cases hstray
  · rename_i hisOf
    rw [Bool.eq_false_iff.mpr hisOf, Bool.false_and, Option.toList_none, List.nil_append]
    exact h.stay

theorem stay_cons (h : FindsVisits kind back) (piece : Piece) :
    tagNames .loose kind ((piece :: back).flatMap Piece.render) =
      (visits kind false (piece :: back)).filterMap (·.candidates.getLast?) := by
  rw [List.flatMap_cons]
  cases piece with
  | text chunk plain =>
    rw [Piece.render, tagNames_append plain, h.stay]
    rfl
  | closing tag =>
    rw [Piece.render, tagNames_closing, h.stay]
    rfl
  | opening tag alone => exact h.stay_opening tag alone

/-- The search on its way to a quote goes on behind the piece that holds one. -/
theorem leave_cons (h : FindsVisits kind back) (piece : Piece) {front value after : Text}
    (hfront : '"' ∉ front)
    (hfound : quotedValue? (front ++ (piece :: back).flatMap Piece.render) = some (value, after)) :
    tagNames .loose kind after =
      (visits kind true (piece :: back)).filterMap (·.candidates.getLast?) := by
  rw [List.flatMap_cons, ← List.append_assoc] at hfound
  rw [visits, visitAt?, passesNext, Option.toList_none, List.nil_append]
  cases hquote : piece.hasQuote with
  | true =>
    obtain ⟨lead, rest, hrender, hlead, hrest⟩ := Piece.exists_split_of_hasQuote hquote
    have hafter : rest ++ back.flatMap Piece.render = after := by
      obtain ⟨_, hvalue, hsplit⟩ := quotedValue?_eq_some_iff.mp hfound
      have hlead' : '"' ∉ front ++ lead := by
        simp [hfront, hlead]
      rw [hrender, ← List.append_assoc, List.append_assoc _ ('"' :: rest), List.cons_append,
        Text.append_cons_eq_iff hvalue hlead'] at hsplit
      exact hsplit.2.symm
    rw [← hafter, tagNames_append hrest]
    exact h.stay
  | false =>
    have hpiece : '"' ∉ front ++ piece.render := by
      simp [hfront, of_decide_eq_false hquote]
    exact h.leave _ value after hpiece hfound

end FindsVisits

theorem findsVisits (kind : DefKind) (pieces : List Piece) : FindsVisits kind pieces := by
  induction pieces with
  | nil => exact FindsVisits.nil
  | cons piece back ih =>
    exact ⟨ih.stay_cons piece, fun front value after hfront hfound ↦
      ih.leave_cons piece hfront hfound⟩

theorem back_of_visitAt? {kind : DefKind} {passes : Bool} {piece : Piece} {back : List Piece}
    {visit : Visit} (h : visitAt? kind passes piece back = some visit) : visit.back = back := by
  unfold visitAt? at h
  split at h
  · split at h
    · obtain rfl := Option.some.inj h
      rfl
    · cases h
  all_goals cases h

theorem length_of_mem_visits {kind : DefKind} {passes : Bool} {pieces : List Piece} {visit : Visit}
    (h : visit ∈ visits kind passes pieces) : visit.back.length < pieces.length := by
  induction pieces generalizing passes with
  | nil => cases h
  | cons piece back ih =>
    rw [visits, List.mem_append, Option.mem_toList] at h
    rcases h with h | h
    · rw [back_of_visitAt? h]
      exact Nat.lt_succ_self _
    · exact Nat.lt_succ_of_lt (ih h)

/-- An element is visited if the search is not on its way to a quote behind the pieces before it. -/
theorem mem_visits_iff {kind : DefKind} {passes : Bool} {front back : List Piece} {tag : Tag}
    {alone : Bool} :
    ⟨tag, alone, back⟩ ∈ visits kind passes (front ++ .opening tag alone :: back) ↔
      passesOver kind passes front (.opening tag alone :: back) = false ∧
        tag.isOf .loose kind = true := by
  induction front generalizing passes with
  | nil =>
    have hlater : ∀ passes, ⟨tag, alone, back⟩ ∉ visits kind passes back := by
      intro passes hmem
      exact Nat.lt_irrefl _ (length_of_mem_visits hmem)
    rw [List.nil_append, visits, List.mem_append, Option.mem_toList, passesOver]
    cases passes <;> simp [visitAt?, hlater]
  | cons piece front ih =>
    have hhead : ⟨tag, alone, back⟩ ∉
        (visitAt? kind passes piece (front ++ .opening tag alone :: back)).toList := by
      rw [Option.mem_toList]
      intro hmem
      have hlength := congrArg List.length (back_of_visitAt? hmem)
      simp only [List.length_append, List.length_cons] at hlength
      omega
    rw [List.cons_append, visits, List.mem_append, or_iff_right hhead, ih, passesOver]

/-! ## Which names are reported -/

theorem nameCandidates_append {matching : Matching} (earlier later : List Attribute) (rest : Text) :
    nameCandidates matching (earlier ++ later) rest =
      nameCandidates matching earlier (later.flatMap Attribute.render ++ rest) ++
        nameCandidates matching later rest := by
  induction earlier with
  | nil => rfl
  | cons a more ih =>
    let behind := (more ++ later).flatMap Attribute.render ++ rest
    have hbehind : behind =
        more.flatMap Attribute.render ++ (later.flatMap Attribute.render ++ rest) := by
      rw [← List.append_assoc, ← List.flatMap_append]
    calc
      nameCandidates matching (a :: more ++ later) rest =
          a.candidates matching behind ++ nameCandidates matching (more ++ later) rest := by
        rw [List.cons_append, nameCandidates]
      _ = a.candidates matching behind ++
          (nameCandidates matching more (later.flatMap Attribute.render ++ rest) ++
            nameCandidates matching later rest) := by
        rw [ih]
      _ = nameCandidates matching (a :: more) (later.flatMap Attribute.render ++ rest) ++
          nameCandidates matching later rest := by
        rw [hbehind, nameCandidates, List.append_assoc]

theorem nameCandidates_eq_nil {attributes : List Attribute} {rest : Text}
    (h : ∀ a ∈ attributes, ¬nameKey <:+ a.key ∧ endsInName .loose false a.value = false) :
    nameCandidates .loose attributes rest = [] := by
  induction attributes with
  | nil => rfl
  | cons a more ih =>
    obtain ⟨hkey, hvalue⟩ := h a List.mem_cons_self
    have hnamed : a.isNamed .loose = false := by
      rw [Bool.eq_false_iff]
      exact fun hnamed ↦ hkey (List.isSuffixOf_iff_suffix.mp hnamed)
    rw [nameCandidates, ih fun b hb ↦ h b (List.mem_cons_of_mem _ hb), Attribute.candidates, hnamed,
      hvalue]
    rfl

namespace Visit

/-- The names that the search meets in the tag behind the value of an attribute, given the later
attributes. -/
def candidatesBehind (visit : Visit) (a : Attribute) (later : List Attribute) : List Text :=
  ((if endsInName .loose false a.value then
      (quotedValue? (later.flatMap Attribute.render ++ visit.behind)).toList else []) ++
    nameCandidates .loose later visit.behind).map Prod.fst

/-- A name attribute is the last candidate if no other candidate follows it. -/
theorem getLast?_candidates_of_name {visit : Visit} {earlier later : List Attribute} {a : Attribute}
    (hattributes : visit.tag.attributes = earlier ++ a :: later) (hkey : a.key = nameKey)
    (hvalue : a.value ≠ []) :
    visit.candidates.getLast? = some ((visit.candidatesBehind a later).getLast?.getD a.value) := by
  have hnamed : (a.isNamed .loose && !a.value.isEmpty) = true := by
    simp [Attribute.isNamed, hkey, hvalue]
  have hsplit : visit.candidates =
      (nameCandidates .loose earlier ((a :: later).flatMap Attribute.render ++
        visit.behind)).map Prod.fst ++ (a.value :: visit.candidatesBehind a later) := by
    rw [candidates, candidatesBehind, hattributes, nameCandidates_append, nameCandidates,
      Attribute.candidates, hnamed]
    simp
  calc
    visit.candidates.getLast? = (a.value :: visit.candidatesBehind a later).getLast?.or
        ((nameCandidates .loose earlier ((a :: later).flatMap Attribute.render ++
          visit.behind)).map Prod.fst).getLast? := by
      rw [hsplit, List.getLast?_append]
    _ = some ((visit.candidatesBehind a later).getLast?.getD a.value) := by
      rw [List.getLast?_cons]
      rfl

end Visit

/-- The names that the second rule finds for a kind are the last candidates of the visited tags. -/
theorem mem_extract_loose_render_iff {doc : Content} {kind : DefKind} (hkind : kind ∈ DefKind.all)
    (name : Text) :
    ⟨kind.key, name⟩ ∈ extract .loose doc.render ↔
      ⟨kind.key, name⟩ ∈ taggedDefinitions .loose doc.render ∨
        ∃ visit ∈ visits kind false doc.pieces, visit.candidates.getLast? = some name := by
  have hnames : ∀ kind, tagNames .loose kind doc.render =
      (visits kind false doc.pieces).filterMap (·.candidates.getLast?) := by
    intro kind
    rw [← doc.flatMap_pieces]
    exact (findsVisits kind doc.pieces).stay
  have hkeys : ∀ other ∈ DefKind.all, other.key = kind.key → other = kind := fun other hother heq ↦
    List.inj_on_of_nodup_map DefKind.nodup_keys hother hkind heq
  rw [extract, List.mem_append, namedDefinitions]
  simp only [hnames, List.mem_flatMap, List.mem_map, List.mem_filterMap, Definition.mk.injEq]
  constructor
  · rintro (htagged | ⟨other, hother, _, hvisit, hkey, rfl⟩)
    · exact Or.inl htagged
    · rw [hkeys other hother hkey] at hvisit
      exact Or.inr hvisit
  · rintro (htagged | hvisit)
    · exact Or.inl htagged
    · exact Or.inr ⟨kind, hkind, name, hvisit, rfl, rfl⟩

theorem passesOver_eq_false {kind : DefKind} {front back : List Piece}
    (h : ∀ tag alone, .opening tag alone ∈ front → runsAway .loose tag.attributes = false) :
    passesOver kind false front back = false := by
  induction front with
  | nil => rfl
  | cons piece front ih =>
    have hnext : passesNext kind false piece (front ++ back) = false := by
      cases piece with
      | opening tag alone =>
        rw [passesNext, Visit.leaves, h tag alone List.mem_cons_self, Bool.false_and,
          Bool.and_false]
      | text chunk plain => rfl
      | closing tag => rfl
    rw [passesOver, hnext]
    exact ih fun tag alone hmem ↦ h tag alone (List.mem_cons_of_mem _ hmem)

/-- In a document without values that end like a name attribute, the name attribute of a recognized
element is reported if no later key of the element ends in the name key. -/
theorem mem_extract_loose_of_last_name {doc : Content} {kind : DefKind} {front back : List Piece}
    {tag : Tag} {alone : Bool} {earlier later : List Attribute} {a : Attribute}
    (hkind : kind ∈ DefKind.all) (hpieces : doc.pieces = front ++ .opening tag alone :: back)
    (htag : tag.name = kind.tag) (hattributes : tag.attributes = earlier ++ a :: later)
    (hkey : a.key = nameKey) (hvalue : a.value ≠ [])
    (hvalues : ∀ tag alone, .opening tag alone ∈ doc.pieces → ∀ b ∈ tag.attributes,
      endsInName .loose false b.value = false)
    (hlater : ∀ b ∈ later, ¬nameKey <:+ b.key) :
    ⟨kind.key, a.value⟩ ∈ extract .loose doc.render := by
  have hruns : ∀ tag alone, .opening tag alone ∈ front → runsAway .loose tag.attributes = false := by
    intro tag alone hmem
    rw [runsAway, Option.any_eq_false]
    intro b hb
    exact hvalues tag alone (by simp [hpieces, hmem]) b (List.mem_of_getLast? hb)
  have hvisited : ⟨tag, alone, back⟩ ∈ visits kind false doc.pieces := by
    rw [hpieces, mem_visits_iff]
    exact ⟨passesOver_eq_false hruns, by simp [Tag.isOf, htag]⟩
  have hplain := hvalues tag alone (by simp [hpieces])
  rw [hattributes] at hplain
  have hnone : nameCandidates .loose later (Visit.behind ⟨tag, alone, back⟩) = [] := by
    exact nameCandidates_eq_nil fun b hb ↦ ⟨hlater b hb, hplain b (by simp [hb])⟩
  have hbehind : Visit.candidatesBehind ⟨tag, alone, back⟩ a later = [] := by
    rw [Visit.candidatesBehind, hplain a (by simp), hnone]
    rfl
  refine (mem_extract_loose_render_iff hkind _).mpr (Or.inr ⟨_, hvisited, ?_⟩)
  rw [Visit.getLast?_candidates_of_name hattributes hkey hvalue, hbehind]
  rfl

/-- In loose matching the name attribute of a recognized element is reported if and only if the
search is not on its way to a quote when it comes to the element and the last candidate behind the
attribute, if there is one, has the same value; or else the same definition is found elsewhere. -/
theorem name_mem_extract_loose_iff {doc : Content} {kind : DefKind} {front back : List Piece}
    {tag : Tag} {alone : Bool} {earlier later : List Attribute} {a : Attribute}
    (hkind : kind ∈ DefKind.all) (hpieces : doc.pieces = front ++ .opening tag alone :: back)
    (htag : tag.name = kind.tag) (hattributes : tag.attributes = earlier ++ a :: later)
    (hkey : a.key = nameKey) (hvalue : a.value ≠ []) :
    ⟨kind.key, a.value⟩ ∈ extract .loose doc.render ↔
      (passesOver kind false front (.opening tag alone :: back) = false ∧
        ∀ name ∈ (Visit.candidatesBehind ⟨tag, alone, back⟩ a later).getLast?, name = a.value) ∨
      ⟨kind.key, a.value⟩ ∈ taggedDefinitions .loose doc.render ∨
      ∃ visit ∈ visits kind false doc.pieces, visit ≠ ⟨tag, alone, back⟩ ∧
        visit.candidates.getLast? = some a.value := by
  have hisOf : tag.isOf .loose kind = true := by
    simp [Tag.isOf, htag]
  have hvisited : ⟨tag, alone, back⟩ ∈ visits kind false doc.pieces ↔
      passesOver kind false front (.opening tag alone :: back) = false := by
    rw [hpieces, mem_visits_iff, hisOf]
    exact and_iff_left rfl
  have hlast : (Visit.candidates ⟨tag, alone, back⟩).getLast? = some a.value ↔
      ∀ name ∈ (Visit.candidatesBehind ⟨tag, alone, back⟩ a later).getLast?, name = a.value := by
    rw [Visit.getLast?_candidates_of_name hattributes hkey hvalue, Option.some_inj]
    cases (Visit.candidatesBehind ⟨tag, alone, back⟩ a later).getLast? <;> simp
  rw [mem_extract_loose_render_iff hkind, ← hvisited, ← hlast]
  constructor
  · rintro (htagged | ⟨visit, hmem, hname⟩)
    · exact Or.inr (Or.inl htagged)
    · by_cases heq : visit = ⟨tag, alone, back⟩
      · rw [heq] at hmem hname
        exact Or.inl ⟨hmem, hname⟩
      · exact Or.inr (Or.inr ⟨visit, hmem, heq, hname⟩)
  · rintro (⟨hmem, hname⟩ | htagged | ⟨visit, hmem, _, hname⟩)
    · exact Or.inr ⟨_, hmem, hname⟩
    · exact Or.inl htagged
    · exact Or.inr ⟨visit, hmem, hname⟩

/-- The name of a parent hides the name before it, and does not hide the name behind it. -/
theorem name_mem_extract_loose_parent :
    ⟨"thing".toList, "Base".toList⟩ ∉
        extract .loose (Content.element parentLast .nothing .nothing).render ∧
      ⟨"thing".toList, "Base".toList⟩ ∈
        extract .loose (Content.element parentFirst .nothing .nothing).render := by
  have hkind : { tag := "ThingDef".toList, key := "thing".toList } ∈ DefKind.all := by decide
  constructor
  · have hpieces : (Content.element parentLast .nothing .nothing).pieces =
        [] ++ .opening parentLast false :: [.closing parentLast] := rfl
    have hattributes : parentLast.attributes = [] ++ baseName :: [rootName] := rfl
    have hiff := name_mem_extract_loose_iff hkind hpieces rfl hattributes rfl (by decide)
    apply hiff.not.mpr
    rintro (⟨_, hlast⟩ | htagged | ⟨visit, hvisit, hne, _⟩)
    · exact absurd (hlast "Root".toList (by decide)) (by decide)
    · exact absurd htagged (by decide +kernel)
    · exact hne (List.mem_singleton.mp hvisit)
  · have hpieces : (Content.element parentFirst .nothing .nothing).pieces =
        [] ++ .opening parentFirst false :: [.closing parentFirst] := rfl
    have hattributes : parentFirst.attributes = [rootName] ++ baseName :: [] := rfl
    have hiff := name_mem_extract_loose_iff hkind hpieces rfl hattributes rfl (by decide)
    exact hiff.mpr (Or.inl ⟨rfl, by decide⟩)

end DefCatalog.Markup
