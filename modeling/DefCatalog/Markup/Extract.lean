import DefCatalog.Markup.TagSpan

/-!
# Definitions in a document

Two rules find the definitions of a document without parsing it.

* An element `<defName>X</defName>` defines `X` for the first kind whose tag is still open there.
* An opening tag with an attribute `Name="Y"` defines `Y` for the kind of the tag.

The names of the first rule come first, in document order, then those of the second rule, kind by
kind. A name that is found twice is listed twice.
-/

namespace DefCatalog.Markup

/-- The tag of an element whose text is a name. -/
def nameTag : Text := "defName".toList

/-- The opening tag of a name. -/
def nameOpening : Text := '<' :: (nameTag ++ ['>'])

/-- The closing tag of a name. -/
def nameClosing : Text := '<' :: '/' :: (nameTag ++ ['>'])

/-- The value of a `<defName>` element that begins at the head of the text, with the text after the
element: one or more characters other than `<`, closed right after them. -/
def taggedName? (text : Text) : Option (Text × Text) :=
  match Text.after? nameOpening text with
  | none => none
  | some inner =>
    let value := inner.takeWhile (· != '<')
    if value.isEmpty then none
    else
      (Text.after? nameClosing (inner.dropWhile (· != '<'))).map fun rest ↦ (value, rest)

theorem taggedName?_eq_some_iff {text value rest : Text} :
    taggedName? text = some (value, rest) ↔
      value ≠ [] ∧ '<' ∉ value ∧ nameOpening ++ (value ++ (nameClosing ++ rest)) = text := by
  constructor
  · intro h
    unfold taggedName? at h
    split at h
    · cases h
    · rename_i inner hinner
      simp only at h
      split at h
      · cases h
      · rename_i hvalue
        obtain ⟨after, hafter, hpair⟩ := Option.map_eq_some_iff.mp h
        cases hpair
        have hopening := Text.after?_eq_some_iff.mp hinner
        have hclosing := Text.after?_eq_some_iff.mp hafter
        refine ⟨by simpa using hvalue, ?_, ?_⟩
        · intro hmem
          simpa using List.all_eq_true.mp List.all_takeWhile '<' hmem
        · rw [hclosing, List.takeWhile_append_dropWhile, hopening]
  · rintro ⟨hvalue, hplain, rfl⟩
    have hpositive : ∀ c ∈ value, (c != '<') = true := by
      intro c hc
      simpa using ne_of_mem_of_not_mem hc hplain
    have hvalue' : (value ++ (nameClosing ++ rest)).takeWhile (· != '<') = value := by
      rw [List.takeWhile_append_of_pos hpositive]
      simp [nameClosing]
    have hdrop : (value ++ (nameClosing ++ rest)).dropWhile (· != '<') = nameClosing ++ rest := by
      rw [List.dropWhile_append_of_pos hpositive]
      simp [nameClosing]
    simp [taggedName?, hvalue', hdrop, hvalue]

/-- The `<defName>` elements of a text that begins at the given position, each with its position.
The search for the next one goes on right after the one that was found. -/
def taggedNamesFrom (position : Nat) (text : Text) : List (Nat × Text) :=
  match text with
  | [] => []
  | c :: rest =>
    match _h : taggedName? (c :: rest) with
    | none => taggedNamesFrom (position + 1) rest
    | some (value, after) =>
      let width := nameOpening.length + value.length + nameClosing.length
      (position, value) :: taggedNamesFrom (position + width) after
termination_by text.length
decreasing_by
  · simp
  · obtain ⟨_, _, happend⟩ := taggedName?_eq_some_iff.mp _h
    rw [← happend]
    simp only [nameOpening, List.length_append, List.length_cons]
    omega

/-- The `<defName>` elements of a document, each with its position. -/
def taggedNames (text : Text) : List (Nat × Text) :=
  taggedNamesFrom 0 text

/-- The definitions by the first rule. -/
def taggedDefinitions (matching : Matching) (text : Text) : List Definition :=
  let names := taggedNames text
  if names.isEmpty then []
  else
    let tags := DefKind.all.map (TagOccurrences.collect matching text)
    names.filterMap fun (position, value) ↦
      (tags.find? (·.isOpenAt position)).map fun kind ↦ ⟨kind.key, value⟩

/-- The value of an attribute, given the text after its opening quote: one or more characters up
to the next quote. The second part is the text after that quote. -/
def quotedValue? (text : Text) : Option (Text × Text) :=
  match text.takeWhile (· != '"'), text.dropWhile (· != '"') with
  | c :: value, _ :: rest => some (c :: value, rest)
  | _, _ => none

/-- The key of an attribute whose value is a name. -/
def nameKey : Text := "Name".toList

/-- The value of an attribute `Name="…"` at the head of the text. In strict matching a blank has to
stand before it. -/
def nameAttribute? (matching : Matching) (afterBlank : Bool) (text : Text) :
    Option (Text × Text) :=
  if matching = .strict ∧ afterBlank = false then none
  else match Text.after? (nameKey ++ ['=', '"']) text with
    | none => none
    | some value => quotedValue? value

/-- The last name attribute before the first `>`, or `best` if there is none. -/
def lastNameAttribute? (matching : Matching) (best : Option (Text × Text)) (afterBlank : Bool) :
    Text → Option (Text × Text)
  | [] => best
  | c :: rest =>
    if c = '>' then best
    else
      lastNameAttribute? matching ((nameAttribute? matching afterBlank (c :: rest)).or best)
        (Text.isBlank c) rest

/-- The name that an opening tag at the head of the text carries, with the text after its closing
quote. -/
def namedTag? (matching : Matching) (kind : DefKind) (text : Text) : Option (Text × Text) :=
  match Text.after? ('<' :: kind.tag) text, matching with
  | none, _ => none
  | some inner, .loose => lastNameAttribute? .loose none false inner
  | some [], .strict => none
  | some (c :: inner), .strict =>
    if Text.isBlank c then lastNameAttribute? .strict none true inner else none

theorem length_of_quotedValue? {text value rest : Text}
    (h : quotedValue? text = some (value, rest)) : rest.length < text.length := by
  unfold quotedValue? at h
  split at h
  · rename_i _ hdrop
    cases h
    have hle := (List.dropWhile_suffix (l := text) (· != '"')).length_le
    rw [hdrop] at hle
    exact hle
  · cases h

theorem length_of_nameAttribute? {matching : Matching} {afterBlank : Bool} {text value rest : Text}
    (h : nameAttribute? matching afterBlank text = some (value, rest)) :
    rest.length < text.length := by
  unfold nameAttribute? at h
  split at h
  · cases h
  · split at h
    · cases h
    · rename_i inner hinner
      have happend := Text.after?_eq_some_iff.mp hinner
      have hlt := length_of_quotedValue? h
      rw [← happend]
      simp only [List.length_append]
      omega

theorem length_of_lastNameAttribute? {matching : Matching} {best : Option (Text × Text)}
    {afterBlank : Bool} {text value rest : Text} {bound : Nat} (htext : text.length ≤ bound)
    (hbest : ∀ v r, best = some (v, r) → r.length < bound)
    (h : lastNameAttribute? matching best afterBlank text = some (value, rest)) :
    rest.length < bound := by
  induction text generalizing best afterBlank with
  | nil => exact hbest _ _ h
  | cons c tail ih =>
    unfold lastNameAttribute? at h
    split at h
    · exact hbest _ _ h
    · refine ih (by simp at htext; omega) ?_ h
      intro v r hor
      cases hname : nameAttribute? matching afterBlank (c :: tail) with
      | none =>
        rw [hname, Option.none_or] at hor
        exact hbest v r hor
      | some hit =>
        rw [hname, Option.some_or] at hor
        cases hor
        exact Nat.lt_of_lt_of_le (length_of_nameAttribute? hname) htext

theorem length_of_namedTag? {matching : Matching} {kind : DefKind} {text value rest : Text}
    (h : namedTag? matching kind text = some (value, rest)) : rest.length < text.length := by
  unfold namedTag? at h
  split at h
  · cases h
  · rename_i inner hinner
    have happend := Text.after?_eq_some_iff.mp hinner
    refine length_of_lastNameAttribute? ?_ (by simp) h
    rw [← happend]
    simp only [List.length_append, List.length_cons]
    omega
  · cases h
  · rename_i c inner hinner
    have happend := Text.after?_eq_some_iff.mp hinner
    split at h
    · refine length_of_lastNameAttribute? ?_ (by simp) h
      rw [← happend]
      simp only [List.length_append, List.length_cons]
      omega
    · cases h

/-- The names that the tags of a kind carry. The search for the next tag goes on right after the
closing quote of a name, so a tag inside a name is not seen. -/
def tagNames (matching : Matching) (kind : DefKind) : Text → List Text
  | [] => []
  | c :: rest =>
    match _h : namedTag? matching kind (c :: rest) with
    | some (value, after) => value :: tagNames matching kind after
    | none => tagNames matching kind rest
termination_by text => text.length
decreasing_by
  · exact length_of_namedTag? _h
  · simp

/-- The definitions by the second rule. -/
def namedDefinitions (matching : Matching) (text : Text) : List Definition :=
  DefKind.all.flatMap fun kind ↦ (tagNames matching kind text).map fun name ↦ ⟨kind.key, name⟩

/-- The definitions of a document by both rules. -/
def extract (matching : Matching) (text : Text) : List Definition :=
  taggedDefinitions matching text ++ namedDefinitions matching text

end DefCatalog.Markup
