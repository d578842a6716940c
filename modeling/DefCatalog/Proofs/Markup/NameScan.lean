import DefCatalog.Proofs.Markup.NamedTags

/-!
# The second rule as a scan from the left

The plain form of the second rule speaks of positions in a document. An opening tag of a kind has as
candidates all name attributes behind its spelling and before the next `>` that have a value. The scan
goes from the beginning to the first opening tag that has a candidate, takes the last one, goes on
right behind its value, and so on. Main statement: the search that goes through each tag once and keeps
the last name that it has met finds the same names in the same order, in any text.
-/

namespace DefCatalog.Markup

/-- What stands before the value of a name attribute. -/
def nameLead : Text := nameKey ++ ['=', '"']

/-- An opening tag with a name attribute: where the tag and the attribute begin, and the name. -/
structure NamedTag where
  start : Nat
  key : Nat
  value : Text
deriving DecidableEq, Repr

/-- The position behind the closing quote of the name. -/
def NamedTag.stop (tag : NamedTag) : Nat :=
  tag.key + (nameLead.length + tag.value.length + 1)

/-- Whether an opening tag of a kind has a name attribute as a candidate. -/
structure IsCandidate (matching : Matching) (kind : DefKind) (text : Text) (tag : NamedTag) :
    Prop where
  spelled : '<' :: kind.tag <+: text.drop tag.start
  behind : tag.start + (kind.tag.length + 1) ≤ tag.key
  /-- The attribute lies before the first `>` behind the spelling of the tag. -/
  inside : ∀ position, tag.start + (kind.tag.length + 1) ≤ position → position < tag.key →
    text[position]? ≠ some '>'
  /-- The value is everything up to the next quote, whatever marks are in it. -/
  quoted : nameLead ++ (tag.value ++ ['"']) <+: text.drop tag.key
  value_ne_nil : tag.value ≠ []
  value_plain : '"' ∉ tag.value
  /-- In strict matching a blank stands behind the spelling of the tag and before the attribute. -/
  separate : matching = .strict →
    (text[tag.start + (kind.tag.length + 1)]?).any Text.isBlank = true ∧
      (text[tag.key - 1]?).any Text.isBlank = true

/-- The scan from a position to the end of a document, with the tags that give a name. -/
inductive ScansFrom (matching : Matching) (kind : DefKind) (text : Text) :
    Nat → List NamedTag → Prop where
  | done {position : Nat}
      (hnone : ∀ tag, IsCandidate matching kind text tag → tag.start < position) :
      ScansFrom matching kind text position []
  | found {position : Nat} {tag : NamedTag} {later : List NamedTag}
      (hcandidate : IsCandidate matching kind text tag) (hposition : position ≤ tag.start)
      (hfirst : ∀ other, IsCandidate matching kind text other → position ≤ other.start →
        tag.start ≤ other.start)
      (hlast : ∀ other, IsCandidate matching kind text other → other.start = tag.start →
        other.key ≤ tag.key)
      (hlater : ScansFrom matching kind text tag.stop later) :
      ScansFrom matching kind text position (tag :: later)

variable {matching : Matching} {kind : DefKind} {text inner value after : Text} {afterBlank : Bool}
  {tag other : NamedTag} {position start offset : Nat} {found later : List NamedTag}

theorem IsCandidate.start_lt (h : IsCandidate matching kind text tag) :
    tag.start < text.length := by
  have hlength := h.spelled.length_le
  rw [List.length_cons, List.length_drop] at hlength
  omega

theorem IsCandidate.start_lt_stop (h : IsCandidate matching kind text tag) :
    tag.start < tag.stop := by
  have hbehind := h.behind
  unfold NamedTag.stop
  omega

theorem drop_key (tag : NamedTag)
    (hquoted : nameLead ++ (tag.value ++ ['"']) <+: text.drop tag.key) :
    text.drop tag.key = nameLead ++ (tag.value ++ '"' :: text.drop tag.stop) := by
  obtain ⟨rest, hrest⟩ := hquoted
  have hstop : text.drop tag.stop = rest := by
    unfold NamedTag.stop
    rw [← List.drop_drop, ← hrest]
    apply List.drop_left'
    simp only [List.length_append, List.length_singleton]
    omega
  rw [hstop, ← hrest]
  simp only [List.append_assoc, List.singleton_append]

theorem IsCandidate.eq_of_key_eq (h : IsCandidate matching kind text tag)
    (hother : IsCandidate matching kind text other) (hstart : other.start = tag.start)
    (hkey : other.key = tag.key) : other = tag := by
  have hdrop := drop_key other hother.quoted
  rw [hkey, drop_key tag h.quoted, List.append_cancel_left_eq,
    Text.append_cons_eq_iff h.value_plain hother.value_plain] at hdrop
  cases tag
  cases other
  simp_all

namespace ScansFrom

theorem unique {found' : List NamedTag} (h : ScansFrom matching kind text position found)
    (h' : ScansFrom matching kind text position found') : found' = found := by
  induction h generalizing found' with
  | done hnone =>
    cases h' with
    | done _ => rfl
    | found hcandidate hposition => exact absurd (hnone _ hcandidate) (Nat.not_lt.mpr hposition)
  | @found position tag later hcandidate hposition hfirst hlast hlater ih =>
    cases h' with
    | done hnone => exact absurd (hnone _ hcandidate) (Nat.not_lt.mpr hposition)
    | @found _ tag' later' hcandidate' hposition' hfirst' hlast' hlater' =>
      have hstart : tag'.start = tag.start :=
        Nat.le_antisymm (hfirst' _ hcandidate hposition) (hfirst _ hcandidate' hposition')
      have hkey : tag'.key = tag.key :=
        Nat.le_antisymm (hlast _ hcandidate' hstart) (hlast' _ hcandidate hstart.symm)
      obtain rfl := hcandidate.eq_of_key_eq hcandidate' hstart hkey
      rw [ih hlater']

theorem ascending (h : ScansFrom matching kind text position found) :
    (∀ tag ∈ found, position ≤ tag.start) ∧ (found.map NamedTag.start).Pairwise (· < ·) := by
  induction h with
  | done hnone => exact ⟨fun _ hmem ↦ absurd hmem List.not_mem_nil, List.Pairwise.nil⟩
  | @found position tag later hcandidate hposition hfirst hlast hlater ih =>
    have hlt : ∀ other ∈ later, tag.start < other.start := fun other hother ↦
      Nat.lt_of_lt_of_le hcandidate.start_lt_stop (ih.1 other hother)
    constructor
    · intro other hother
      cases hother with
      | head => exact hposition
      | tail _ hmem => exact Nat.le_trans hposition (Nat.le_of_lt (hlt other hmem))
    · rw [List.map_cons]
      exact List.Pairwise.cons (List.forall_mem_map.mpr hlt) ih.2

theorem of_succ (h : ScansFrom matching kind text (position + 1) found)
    (hnone : ∀ tag, IsCandidate matching kind text tag → tag.start ≠ position) :
    ScansFrom matching kind text position found := by
  cases h with
  | done hlt =>
    refine .done fun tag hcandidate ↦ ?_
    exact Nat.lt_of_le_of_ne (Nat.le_of_lt_succ (hlt tag hcandidate)) (hnone tag hcandidate)
  | found hcandidate hposition hfirst hlast hlater =>
    refine .found hcandidate (Nat.le_of_succ_le hposition) (fun other hother hle ↦ ?_) hlast hlater
    exact hfirst other hother (Nat.lt_of_le_of_ne hle (hnone other hother).symm)

end ScansFrom

theorem nameAttribute?_eq_some_iff :
    nameAttribute? matching afterBlank text = some (value, after) ↔
      (matching = .strict → afterBlank = true) ∧ value ≠ [] ∧ '"' ∉ value ∧
        nameLead ++ (value ++ '"' :: after) = text := by
  unfold nameAttribute?
  split
  · rename_i hblank
    simp [hblank]
  · rename_i hblank
    have hseparate : matching = .strict → afterBlank = true := fun hstrict ↦ by
      simpa [hstrict] using hblank
    rw [show nameKey ++ ['=', '"'] = nameLead from rfl]
    cases hafter : Text.after? nameLead text with
    | none =>
      simp only [reduceCtorEq, false_iff]
      rintro ⟨_, _, _, rfl⟩
      rw [Text.after?_append] at hafter
      cases hafter
    | some rest =>
      obtain rfl := Text.after?_eq_some_iff.mp hafter
      simp only [quotedValue?_eq_some_iff, List.append_cancel_left_eq]
      exact (and_iff_right hseparate).symm

/-- Whether a blank stands before a position of a text, given whether one stands before the text. -/
def blankBefore (afterBlank : Bool) (text : Text) : Nat → Bool
  | 0 => afterBlank
  | position + 1 => (text[position]?).any Text.isBlank

/-- Whether the search for the name of a tag meets a name attribute at some distance. -/
def MeetsAt (matching : Matching) (afterBlank : Bool) (text : Text) (offset : Nat)
    (met : Text × Text) : Prop :=
  '>' ∉ text.take offset ∧
    nameAttribute? matching (blankBefore afterBlank text offset) (text.drop offset) = some met

theorem meetsAt_zero {met : Text × Text} :
    MeetsAt matching afterBlank text 0 met ↔ nameAttribute? matching afterBlank text = some met := by
  simp [MeetsAt, blankBefore]

theorem meetsAt_succ {c : Char} {met : Text × Text} :
    MeetsAt matching afterBlank (c :: text) (offset + 1) met ↔
      c ≠ '>' ∧ MeetsAt matching (Text.isBlank c) text offset met := by
  have hblank : blankBefore afterBlank (c :: text) (offset + 1) =
      blankBefore (Text.isBlank c) text offset := by
    cases offset <;> rfl
  unfold MeetsAt
  rw [hblank, List.take_succ_cons, List.drop_succ_cons, List.mem_cons, not_or, and_assoc, ne_comm]

/-- The search comes to the last name attribute that it meets, or it meets none. -/
theorem lastNameAttribute?_cases (matching : Matching) (best : Option (Text × Text))
    (afterBlank : Bool) (text : Text) :
    (∃ offset met, lastNameAttribute? matching best afterBlank text = some met ∧
      MeetsAt matching afterBlank text offset met ∧
      ∀ further met', MeetsAt matching afterBlank text further met' → further ≤ offset) ∨
    (lastNameAttribute? matching best afterBlank text = best ∧
      ∀ offset met, ¬MeetsAt matching afterBlank text offset met) := by
  induction text generalizing best afterBlank with
  | nil =>
    refine Or.inr ⟨rfl, fun offset met hmet ↦ ?_⟩
    obtain ⟨value, after⟩ := met
    have hmet := (nameAttribute?_eq_some_iff.mp hmet.2).2.2.2
    simp [nameLead, nameKey] at hmet
  | cons c text ih =>
    rw [lastNameAttribute?]
    by_cases hend : c = '>'
    · rw [if_pos hend]
      refine Or.inr ⟨rfl, fun offset met hmet ↦ ?_⟩
      cases offset with
      | zero =>
        obtain ⟨value, after⟩ := met
        have hmet := (nameAttribute?_eq_some_iff.mp (meetsAt_zero.mp hmet)).2.2.2
        rw [hend] at hmet
        cases hmet
      | succ offset => exact (meetsAt_succ.mp hmet).1 hend
    · rw [if_neg hend]
      rcases ih ((nameAttribute? matching afterBlank (c :: text)).or best) (Text.isBlank c) with
        ⟨offset, met, hlast, hmet, hgreatest⟩ | ⟨hbest, hnone⟩
      · refine Or.inl ⟨offset + 1, met, hlast, meetsAt_succ.mpr ⟨hend, hmet⟩, ?_⟩
        intro further met' hmet'
        cases further with
        | zero => exact Nat.zero_le _
        | succ further =>
          exact Nat.succ_le_succ (hgreatest further met' (meetsAt_succ.mp hmet').2)
      · -- nothing is met behind this character, so what counts is what stands at it
        have hbehind : ∀ further met', MeetsAt matching afterBlank (c :: text) further met' →
            further = 0 := by
          intro further met' hmet'
          cases further with
          | zero => rfl
          | succ further => exact absurd (meetsAt_succ.mp hmet').2 (hnone further met')
        rw [hbest]
        cases hhere : nameAttribute? matching afterBlank (c :: text) with
        | some met =>
          refine Or.inl ⟨0, met, rfl, meetsAt_zero.mpr hhere, fun further met' hmet' ↦ ?_⟩
          exact Nat.le_of_eq (hbehind further met' hmet')
        | none =>
          refine Or.inr ⟨rfl, fun offset met hmet ↦ ?_⟩
          obtain rfl := hbehind offset met hmet
          rw [meetsAt_zero, hhere] at hmet
          cases hmet

/-! ## The name of a tag -/

/-- The name of a tag is the last one that is met behind its spelling; in strict matching a blank has
to follow the spelling. -/
theorem namedTag?_eq (matching : Matching) (kind : DefKind) (text : Text) :
    namedTag? matching kind text =
      (Text.after? ('<' :: kind.tag) text).bind fun inner ↦
        if matching = .strict → inner.head?.any Text.isBlank = true then
          lastNameAttribute? matching none false inner
        else none := by
  unfold namedTag?
  cases Text.after? ('<' :: kind.tag) text with
  | none => rfl
  | some inner =>
    cases matching with
    | loose => simp
    | strict =>
      cases inner with
      | nil => simp
      | cons c inner =>
        by_cases hblank : Text.isBlank c = true
        · have hend : c ≠ '>' := by
            rintro rfl
            cases hblank
          simp [hblank, lastNameAttribute?, hend, nameAttribute?]
        · simp [hblank]

theorem not_mem_take_drop_iff {c : Char} {first count : Nat} :
    c ∉ (text.drop first).take count ↔
      ∀ position, first ≤ position → position < first + count → text[position]? ≠ some c := by
  rw [List.mem_iff_getElem?, not_exists]
  constructor
  · intro h position hle hlt heq
    apply h (position - first)
    rw [List.getElem?_take_of_lt (by omega), List.getElem?_drop, Nat.add_sub_cancel' hle, heq]
  · intro h position heq
    rw [List.getElem?_take] at heq
    split at heq
    · rw [List.getElem?_drop] at heq
      exact h _ (Nat.le_add_right _ _) (by omega) heq
    · cases heq

/-- What is met behind the spelling of a tag are the candidates of the tag. -/
theorem meetsAt_iff (hspelled : '<' :: kind.tag <+: text.drop start)
    (hhead : matching = .strict → (text[start + (kind.tag.length + 1)]?).any Text.isBlank = true)
    {key : Nat} (hkey : key = start + (kind.tag.length + 1) + offset) :
    MeetsAt matching false (text.drop (start + (kind.tag.length + 1))) offset (value, after) ↔
      IsCandidate matching kind text ⟨start, key, value⟩ ∧
        after = text.drop (NamedTag.stop ⟨start, key, value⟩) := by
  subst hkey
  unfold MeetsAt
  rw [not_mem_take_drop_iff, nameAttribute?_eq_some_iff, List.drop_drop]
  constructor
  · rintro ⟨hinside, hblank, hvalue, hplain, happend⟩
    have hquoted : nameLead ++ (value ++ ['"']) <+:
        text.drop (start + (kind.tag.length + 1) + offset) := by
      rw [← happend]
      exact ⟨after, by simp only [List.append_assoc, List.singleton_append]⟩
    have hdrop := drop_key ⟨start, _, value⟩ hquoted
    constructor
    · refine ⟨hspelled, Nat.le_add_right _ _, hinside, hquoted, hvalue, hplain, fun hstrict ↦ ?_⟩
      refine ⟨hhead hstrict, ?_⟩
      have hbefore := hblank hstrict
      cases offset with
      | zero => cases hbefore
      | succ offset => rwa [blankBefore, List.getElem?_drop] at hbefore
    · rw [← happend, List.append_cancel_left_eq, List.append_cancel_left_eq] at hdrop
      exact (List.cons.inj hdrop).2
  · rintro ⟨hcandidate, rfl⟩
    have hdrop := drop_key _ hcandidate.quoted
    refine ⟨hcandidate.inside, fun hstrict ↦ ?_, hcandidate.value_ne_nil, hcandidate.value_plain,
      hdrop.symm⟩
    obtain ⟨hfirst, hbefore⟩ := hcandidate.separate hstrict
    cases offset with
    | zero =>
      -- the key itself stands where a blank has to follow the spelling
      have hletter := congrArg List.head? hdrop
      rw [List.head?_drop] at hletter
      simp only [Nat.add_zero] at hletter
      rw [hletter] at hfirst
      simp [nameLead, nameKey, Text.isBlank] at hfirst
    | succ offset => rwa [blankBefore, List.getElem?_drop]

theorem IsCandidate.meetsAt (h : IsCandidate matching kind text tag) :
    MeetsAt matching false (text.drop (tag.start + (kind.tag.length + 1)))
      (tag.key - (tag.start + (kind.tag.length + 1))) (tag.value, text.drop tag.stop) := by
  have hkey := (Nat.add_sub_cancel' h.behind).symm
  apply (meetsAt_iff h.spelled (fun hstrict ↦ (h.separate hstrict).1) hkey).mpr
  exact ⟨h, rfl⟩

/-- The name of a tag is its last candidate. -/
theorem namedTag?_cases (matching : Matching) (kind : DefKind) (text : Text) (start : Nat) :
    (∃ tag, namedTag? matching kind (text.drop start) = some (tag.value, text.drop tag.stop) ∧
      IsCandidate matching kind text tag ∧ tag.start = start ∧
      ∀ other, IsCandidate matching kind text other → other.start = tag.start →
        other.key ≤ tag.key) ∨
    (namedTag? matching kind (text.drop start) = none ∧
      ∀ tag, IsCandidate matching kind text tag → tag.start ≠ start) := by
  rw [namedTag?_eq]
  cases hafter : Text.after? ('<' :: kind.tag) (text.drop start) with
  | none =>
    refine Or.inr ⟨rfl, fun tag hcandidate hstart ↦ ?_⟩
    obtain ⟨rest, hrest⟩ := hcandidate.spelled
    rw [hstart] at hrest
    rw [← hrest, Text.after?_append] at hafter
    cases hafter
  | some inner =>
    have hsplit := Text.after?_eq_some_iff.mp hafter
    have hinner : inner = text.drop (start + (kind.tag.length + 1)) := by
      rw [← List.drop_drop, ← hsplit]
      exact (List.drop_left' List.length_cons).symm
    rw [Option.bind_some, hinner, List.head?_drop]
    split
    · rename_i hhead
      have hspelled : '<' :: kind.tag <+: text.drop start := ⟨inner, hsplit⟩
      rcases lastNameAttribute?_cases matching none false
          (text.drop (start + (kind.tag.length + 1))) with
        ⟨offset, ⟨value, after⟩, hlast, hmet, hgreatest⟩ | ⟨hnone, hmeets⟩
      · obtain ⟨hcandidate, rfl⟩ := (meetsAt_iff hspelled hhead rfl).mp hmet
        refine Or.inl ⟨_, hlast, hcandidate, rfl, fun other hother hstart ↦ ?_⟩
        have hmet' := hother.meetsAt
        rw [hstart] at hmet'
        exact Nat.sub_le_iff_le_add'.mp (hgreatest _ _ hmet')
      · refine Or.inr ⟨hnone, fun tag hcandidate hstart ↦ ?_⟩
        have hmet := hcandidate.meetsAt
        rw [hstart] at hmet
        exact hmeets _ _ hmet
    · rename_i hhead
      refine Or.inr ⟨rfl, fun tag hcandidate hstart ↦ hhead fun hstrict ↦ ?_⟩
      rw [← hstart]
      exact (hcandidate.separate hstrict).1

theorem exists_scansFrom (matching : Matching) (kind : DefKind) (text : Text) (position : Nat) :
    ∃ found, ScansFrom matching kind text position found ∧
      tagNames matching kind (text.drop position) = found.map NamedTag.value := by
  induction hleft : text.length - position using Nat.strongRecOn generalizing position with
  | ind left ih =>
    by_cases hend : text.length ≤ position
    · refine ⟨[], .done fun tag hcandidate ↦ Nat.lt_of_lt_of_le hcandidate.start_lt hend, ?_⟩
      rw [List.drop_eq_nil_of_le hend, tagNames]
      rfl
    · rcases namedTag?_cases matching kind text position with
        ⟨tag, hname, hcandidate, hstart, hlast⟩ | ⟨hname, hnone⟩
      · have hstop := hcandidate.start_lt_stop
        obtain ⟨later, hlater, hnames⟩ := ih (text.length - tag.stop) (by omega) tag.stop rfl
        refine ⟨tag :: later, .found hcandidate (Nat.le_of_eq hstart.symm) ?_ hlast hlater, ?_⟩
        · exact fun other _ hle ↦ hstart ▸ hle
        · rw [tagNames_of_eq_some hname, hnames]
          rfl
      · have hcons := List.drop_eq_getElem_cons (Nat.not_le.mp hend)
        obtain ⟨found, hfound, hnames⟩ :=
          ih (text.length - (position + 1)) (by omega) (position + 1) rfl
        refine ⟨found, hfound.of_succ hnone, ?_⟩
        rw [hcons] at hname ⊢
        rw [tagNames_of_eq_none hname, hnames]

/-- The second rule is a scan from the left, in any text: behind all definitions by the first rule it
adds, kind by kind, the names of the one scan of the document for that kind. Each opening tag gives
at most one name. -/
theorem extract_eq_scan (matching : Matching) (text : Text) :
    ∃ found : DefKind → List NamedTag,
      (∀ kind, (∀ scanned, ScansFrom matching kind text 0 scanned ↔ scanned = found kind) ∧
        ((found kind).map NamedTag.start).Pairwise (· < ·)) ∧
      extract matching text = taggedDefinitions matching text ++
        DefKind.all.flatMap fun kind ↦ (found kind).map fun tag ↦ ⟨kind.key, tag.value⟩ := by
  choose found hscan hnames using fun kind ↦ exists_scansFrom matching kind text 0
  refine ⟨found, fun kind ↦ ⟨fun scanned ↦ ⟨(hscan kind).unique, ?_⟩, (hscan kind).ascending.2⟩, ?_⟩
  · rintro rfl
    exact hscan kind
  · unfold extract namedDefinitions
    simp only [List.drop_zero] at hnames
    simp only [hnames, List.map_map]
    rfl

end DefCatalog.Markup
