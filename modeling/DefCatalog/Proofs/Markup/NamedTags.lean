import DefCatalog.Proofs.Markup.NameAttribute

/-!
# The second rule on a written document

The search for named tags passes over everything between two tags and over closing tags. At the tag
of an element it takes the last candidate in the tag. It goes on behind the tag, unless the last
attribute made it take the text behind the tag for a name.
-/

namespace DefCatalog.Markup

variable {matching : Matching} {kind : DefKind}

theorem namedTag?_eq_none {c : Char} {rest : Text} (h : c ≠ '<') :
    namedTag? matching kind (c :: rest) = none := by
  have hafter : Text.after? ('<' :: kind.tag) (c :: rest) = none := by
    rw [Text.after?, if_neg (Ne.symm h)]
  unfold namedTag?
  rw [hafter]

theorem tagNames_of_eq_some {text name after : Text}
    (h : namedTag? matching kind text = some (name, after)) :
    tagNames matching kind text = name :: tagNames matching kind after := by
  cases text with
  | nil =>
    have hnone : namedTag? matching kind [] = none := by
      unfold namedTag?
      rw [Text.after?]
    rw [hnone] at h
    cases h
  | cons c rest =>
    rw [tagNames]
    split
    · rename_i hname
      rw [hname] at h
      obtain ⟨rfl, rfl⟩ := Prod.mk.inj (Option.some.inj h)
      rfl
    · rename_i hname
      rw [hname] at h
      cases h

theorem tagNames_of_eq_none {c : Char} {rest : Text}
    (h : namedTag? matching kind (c :: rest) = none) :
    tagNames matching kind (c :: rest) = tagNames matching kind rest := by
  rw [tagNames]
  split
  · rename_i hname
    rw [hname] at h
    cases h
  · rfl

theorem tagNames_append {front rest : Text} (h : '<' ∉ front) :
    tagNames matching kind (front ++ rest) = tagNames matching kind rest := by
  induction front with
  | nil => rfl
  | cons c front ih =>
    rw [List.mem_cons, not_or] at h
    rw [List.cons_append, tagNames_of_eq_none (namedTag?_eq_none (Ne.symm h.1))]
    exact ih h.2

theorem tagNames_closing (tag : Tag) (rest : Text) :
    tagNames matching kind (tag.closing ++ rest) = tagNames matching kind rest := by
  have hnone : namedTag? matching kind (tag.closing ++ rest) = none := by
    have hafter : Text.after? ('<' :: kind.tag) (tag.closing ++ rest) = none := by
      obtain ⟨c, more, htag⟩ := List.exists_cons_of_ne_nil kind.tag_ne_nil
      have hne : c ≠ '/' := by
        have hslash : '/' ∉ kind.tag := kind.not_mem_tag (by decide)
        rintro rfl
        exact hslash (by simp [htag])
      simp [Tag.closing, htag, Text.after?, hne]
    unfold namedTag?
    rw [hafter]
  rw [tag.closing_append] at hnone ⊢
  rw [tagNames_of_eq_none hnone, tagNames_append tag.not_mem_tail_closing]

namespace Tag

/-- The names that the search meets before the last quote of a tag. -/
def names (matching : Matching) (tag : Tag) : List Text :=
  (Markup.nameCandidates matching tag.attributes []).map Prod.fst

/-- What the last attribute makes the search take for a name, given the text behind the tag. -/
def strayName? (matching : Matching) (tag : Tag) (alone : Bool) (rest : Text) :
    Option (Text × Text) :=
  if runsAway matching tag.attributes then quotedValue? (tag.gap ++ (ending alone ++ rest))
  else none

variable (tag : Tag) (alone : Bool) (rest : Text)

/-- The candidates in a tag are its names and then its stray name. -/
theorem getLast?_nameCandidates :
    (tag.nameCandidates matching alone rest).getLast? =
      (tag.strayName? matching alone rest).or
        ((Markup.nameCandidates matching tag.attributes []).getLast?.map fun found ↦
          (found.1, found.2 ++ (tag.gap ++ (ending alone ++ rest)))) := by
  have hstray : (if runsAway matching tag.attributes then
      (quotedValue? (tag.gap ++ (ending alone ++ rest))).toList else []) =
      (tag.strayName? matching alone rest).toList := by
    unfold strayName?
    split <;> rfl
  rw [nameCandidates, nameCandidates_eq, hstray, List.getLast?_append, List.getLast?_map]
  cases tag.strayName? matching alone rest <;> rfl

theorem tagNames_render_of_eq_none (h : namedTag? matching kind (tag.render alone ++ rest) = none) :
    tagNames matching kind (tag.render alone ++ rest) = tagNames matching kind rest := by
  rw [render_append] at h ⊢
  rw [tagNames_of_eq_none h, tagNames_append (tag.not_mem_tail_render alone)]

/-- Behind a name in a tag the search goes on with the rest of the tag and what follows it. -/
theorem tagNames_of_mem_nameCandidates {found : Text × Text}
    (h : found ∈ Markup.nameCandidates matching tag.attributes []) :
    tagNames matching kind (found.2 ++ (tag.gap ++ (ending alone ++ rest))) =
      tagNames matching kind rest := by
  have hgap : '<' ∉ tag.gap := fun hmem ↦
    tag.not_mem_inside (Or.inl rfl) (List.mem_append_right _ hmem)
  have hplain : '<' ∉ found.2 ++ (tag.gap ++ ending alone) := by
    simp [not_mem_of_mem_nameCandidates h, hgap, not_mem_ending]
  have hsplit : found.2 ++ (tag.gap ++ (ending alone ++ rest)) =
      found.2 ++ (tag.gap ++ ending alone) ++ rest := by
    simp
  rw [hsplit, tagNames_append hplain]

/-- What the search does at a tag: a stray name makes it leave the tag, and otherwise the tag is
passed over. -/
theorem tagNames_render :
    tagNames matching kind (tag.render alone ++ rest) =
      if tag.isOf matching kind then
        match tag.strayName? matching alone rest with
        | some (name, after) => name :: tagNames matching kind after
        | none => (tag.names matching).getLast?.toList ++ tagNames matching kind rest
      else tagNames matching kind rest := by
  have hname := tag.namedTag?_render matching alone rest kind
  rw [getLast?_nameCandidates] at hname
  split
  · rename_i hisOf
    rw [if_pos hisOf] at hname
    cases hstray : tag.strayName? matching alone rest with
    | some stray =>
      rw [hstray, Option.some_or] at hname
      exact tagNames_of_eq_some hname
    | none =>
      rw [hstray, Option.none_or] at hname
      rw [names, List.getLast?_map]
      cases hlast : (Markup.nameCandidates matching tag.attributes []).getLast? with
      | none =>
        rw [hlast] at hname
        exact tag.tagNames_render_of_eq_none alone rest hname
      | some found =>
        rw [hlast, Option.map_some] at hname
        rw [tagNames_of_eq_some hname,
          tag.tagNames_of_mem_nameCandidates alone rest (List.mem_of_getLast? hlast)]
        rfl
  · rename_i hisOf
    rw [if_neg hisOf] at hname
    exact tag.tagNames_render_of_eq_none alone rest hname

end Tag

/-- The attribute `Name="Base"`. -/
def baseName : Attribute where
  gap := [' ']
  key := nameKey
  value := "Base".toList

/-- The attribute `ParentName="Root"`. -/
def rootName : Attribute where
  gap := [' ']
  key := "ParentName".toList
  value := "Root".toList

theorem thingDef_ne_nil : "ThingDef".toList ≠ [] := by
  decide

/-- `<ThingDef Name="Base" ParentName="Root">` -/
def parentLast : Tag where
  name := "ThingDef".toList
  attributes := [baseName, rootName]
  name_ne_nil := thingDef_ne_nil

/-- `<ThingDef ParentName="Root" Name="Base">` -/
def parentFirst : Tag where
  name := "ThingDef".toList
  attributes := [rootName, baseName]
  name_ne_nil := thingDef_ne_nil

theorem hediffDef_ne_nil : "HediffDef".toList ≠ [] := by
  decide

/-- `<HediffDef>` -/
def plainHediff : Tag where
  name := "HediffDef".toList
  attributes := []
  name_ne_nil := hediffDef_ne_nil

/-- `<HediffDef Name="Base">` -/
def abstractHediff : Tag where
  name := "HediffDef".toList
  attributes := [baseName]
  name_ne_nil := hediffDef_ne_nil

/-- `<defName>` -/
def plainName : Tag where
  name := nameTag
  attributes := []

end DefCatalog.Markup
