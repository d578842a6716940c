import DefCatalog.Markup.Extract
import DefCatalog.Proofs.Markup.Document
import Mathlib.Data.List.TakeWhile

/-!
# Names in a written tag

The search for the name of a tag goes through the tag character by character and keeps the last
place where a name attribute stands. In a written tag there are two kinds of such places: a key that
counts as the name key, and a value that ends like the beginning of a name attribute, behind which
the closing quote is taken for an opening one. Each place gives a candidate, and the last candidate
is the name of the tag.
-/

namespace DefCatalog

namespace Text

theorem append_cons_eq_iff {c : Char} {front front' rest rest' : Text} (hfront : c ∉ front)
    (hfront' : c ∉ front') :
    front ++ c :: rest = front' ++ c :: rest' ↔ front = front' ∧ rest = rest' := by
  constructor
  · intro h
    rcases List.append_eq_append_iff.mp h with ⟨more, hmore, hrest⟩ | ⟨more, hmore, hrest⟩
    · cases more with
      | nil => simp_all
      | cons d more => simp_all
    · cases more with
      | nil => simp_all
      | cons d more => simp_all
  · rintro ⟨rfl, rfl⟩
    rfl

theorem append_cons_ne {c d : Char} {front front' rest rest' : Text} (hne : c ≠ d)
    (hfront : d ∉ front) (hfront' : c ∉ front') : front ++ c :: rest ≠ front' ++ d :: rest' := by
  intro h
  rcases List.append_eq_append_iff.mp h with ⟨more, hmore, hrest⟩ | ⟨more, hmore, hrest⟩
  · cases more with
    | nil => exact hne (List.cons.inj hrest).1
    | cons e more => simp_all
  · cases more with
    | nil => exact hne (List.cons.inj hrest).1.symm
    | cons e more => simp_all

end Text

namespace Markup

/-! ## From quote to quote -/

theorem quotedValue?_eq_some_iff {text value rest : Text} :
    quotedValue? text = some (value, rest) ↔
      value ≠ [] ∧ '"' ∉ value ∧ value ++ '"' :: rest = text := by
  constructor
  · intro h
    unfold quotedValue? at h
    split at h
    · rename_i c front d after htake hdrop
      have hsplit := List.takeWhile_append_dropWhile (p := (· != '"')) (l := text)
      have hd : d = '"' := by
        have hhead := List.head?_dropWhile_not (· != '"') text
        rw [hdrop] at hhead
        simpa using hhead
      obtain ⟨rfl, rfl⟩ := Prod.mk.inj (Option.some.inj h)
      refine ⟨List.cons_ne_nil _ _, fun hmem ↦ ?_, by rw [← hd, ← htake, ← hdrop, hsplit]⟩
      rw [← htake] at hmem
      simpa using List.all_eq_true.mp List.all_takeWhile '"' hmem
    · cases h
  · rintro ⟨hvalue, hplain, rfl⟩
    have hpositive : ∀ c ∈ value, (c != '"') = true := by
      intro c hc
      simpa using ne_of_mem_of_not_mem hc hplain
    have htake : (value ++ '"' :: rest).takeWhile (· != '"') = value := by
      rw [List.takeWhile_append_of_pos hpositive]
      simp
    have hdrop : (value ++ '"' :: rest).dropWhile (· != '"') = '"' :: rest := by
      rw [List.dropWhile_append_of_pos hpositive]
      simp
    obtain ⟨c, more, rfl⟩ := List.exists_cons_of_ne_nil hvalue
    unfold quotedValue?
    rw [htake, hdrop]

theorem quotedValue?_append {value rest : Text} (h : '"' ∉ value) :
    quotedValue? (value ++ '"' :: rest) = if value = [] then none else some (value, rest) := by
  split
  · rename_i hvalue
    rw [hvalue]
    rfl
  · rename_i hvalue
    exact quotedValue?_eq_some_iff.mpr ⟨hvalue, h, rfl⟩

/-- Whether a text without quotes ends like the beginning of a name attribute, so that a quote
behind it opens a name. -/
def endsInName (matching : Matching) (afterBlank : Bool) : Text → Bool
  | [] => false
  | c :: rest =>
    (c :: rest == nameKey ++ ['='] && (matching == .loose || afterBlank)) ||
      endsInName matching (Text.isBlank c) rest

theorem endsInName_iff {matching : Matching} {afterBlank : Bool} {text : Text} :
    endsInName matching afterBlank text = true ↔
      ∃ front, front ++ (nameKey ++ ['=']) = text ∧
        (matching = .loose ∨ (front.getLast?.map Text.isBlank).getD afterBlank = true) := by
  induction text generalizing afterBlank with
  | nil => simp [endsInName, nameKey]
  | cons c rest ih =>
    simp only [endsInName, Bool.or_eq_true, Bool.and_eq_true, beq_iff_eq, ih]
    constructor
    · rintro (⟨hhead, hbefore⟩ | ⟨front, hfront, hbefore⟩)
      · exact ⟨[], hhead.symm, hbefore⟩
      · refine ⟨c :: front, by rw [List.cons_append, hfront], ?_⟩
        cases front with
        | nil => exact hbefore
        | cons d front => rwa [List.getLast?_cons_cons]
    · rintro ⟨front, hfront, hbefore⟩
      cases front with
      | nil => exact Or.inl ⟨hfront.symm, hbefore⟩
      | cons d front =>
        obtain ⟨rfl, hrest⟩ := List.cons.inj hfront
        refine Or.inr ⟨front, hrest, ?_⟩
        cases front with
        | nil => exact hbefore
        | cons e front => rwa [List.getLast?_cons_cons] at hbefore

/-- A name attribute before a quote begins at the head only if the text up to the quote is the
beginning of a name attribute. -/
theorem nameAttribute?_append (matching : Matching) (afterBlank : Bool) {front : Text} (rest : Text)
    (h : '"' ∉ front) :
    nameAttribute? matching afterBlank (front ++ '"' :: rest) =
      if front = nameKey ++ ['='] ∧ (matching = .loose ∨ afterBlank = true) then quotedValue? rest
      else none := by
  have hkey : '"' ∉ nameKey ++ ['='] := by decide
  have hlead : Text.after? (nameKey ++ ['=', '"']) (front ++ '"' :: rest) =
      if front = nameKey ++ ['='] then some rest else none := by
    have hassoc : nameKey ++ ['=', '"'] = nameKey ++ ['='] ++ ['"'] := by simp
    split
    · rename_i hfront
      rw [Text.after?_eq_some_iff, hfront, hassoc, List.append_assoc _ ['"'], List.singleton_append]
    · rename_i hfront
      rw [Option.eq_none_iff_forall_ne_some]
      intro value hvalue
      rw [Text.after?_eq_some_iff, hassoc, List.append_assoc _ ['"'], List.singleton_append,
        Text.append_cons_eq_iff hkey h] at hvalue
      exact hfront hvalue.1.symm
  unfold nameAttribute?
  rw [hlead]
  cases matching <;> cases afterBlank <;> by_cases hfront : front = nameKey ++ ['='] <;>
    simp [hfront]

/-- What the search does up to the next quote. -/
theorem lastNameAttribute?_quote {matching : Matching} {best : Option (Text × Text)}
    {afterBlank : Bool} {front rest : Text} (hquote : '"' ∉ front) (hend : '>' ∉ front) :
    lastNameAttribute? matching best afterBlank (front ++ '"' :: rest) =
      lastNameAttribute? matching
        (if endsInName matching afterBlank front then (quotedValue? rest).or best else best)
        false rest := by
  induction front generalizing best afterBlank with
  | nil =>
    have hname := nameAttribute?_append matching afterBlank rest hquote
    rw [if_neg (by simp [nameKey])] at hname
    rw [List.nil_append] at hname ⊢
    rw [lastNameAttribute?, if_neg (by decide), hname]
    rfl
  | cons c front ih =>
    have hname := nameAttribute?_append matching afterBlank rest hquote
    rw [List.cons_append] at hname ⊢
    rw [List.mem_cons, not_or] at hquote hend
    rw [lastNameAttribute?, if_neg (Ne.symm hend.1), hname, ih hquote.2 hend.2, endsInName]
    congr 1
    by_cases hhead : c :: front = nameKey ++ ['='] ∧ (matching = .loose ∨ afterBlank = true)
    · rw [if_pos hhead]
      simp only [hhead.1, beq_self_eq_true, Bool.true_and, Bool.or_eq_true, beq_iff_eq]
      rw [if_pos (Or.inl hhead.2)]
      split
      · rw [← Option.or_assoc, Option.or_self]
      · rfl
    · rw [if_neg hhead, Option.none_or]
      have hfalse : (c :: front == nameKey ++ ['='] && (matching == .loose || afterBlank)) = false := by
        rw [Bool.eq_false_iff]
        simpa using hhead
      rw [hfalse, Bool.false_or]

/-- No name attribute stands at the head of a text in which another mark comes before the next
quote. -/
theorem nameAttribute?_eq_none (matching : Matching) (afterBlank : Bool) {front : Text}
    (rest : Text) {c d : Char} (hmark : c ∈ ['=', '"']) (hlead : d ∉ nameKey ++ ['=', '"'])
    (hfront : c ∉ front) :
    nameAttribute? matching afterBlank (front ++ d :: rest) = none := by
  obtain ⟨lead, more, hsplit, hmem⟩ : ∃ lead more, nameKey ++ ['=', '"'] = lead ++ c :: more ∧
      d ∉ lead := by
    obtain ⟨lead, more, hsplit⟩ := List.append_of_mem (List.mem_append_right nameKey hmark)
    refine ⟨lead, more, hsplit, fun hmem ↦ hlead ?_⟩
    rw [hsplit]
    exact List.mem_append_left _ hmem
  have hne : c ≠ d := by
    rintro rfl
    exact hlead (List.mem_append_right _ hmark)
  have hafter : Text.after? (nameKey ++ ['=', '"']) (front ++ d :: rest) = none := by
    rw [Option.eq_none_iff_forall_ne_some]
    intro value hvalue
    rw [Text.after?_eq_some_iff, hsplit, List.append_assoc, List.cons_append] at hvalue
    exact Text.append_cons_ne hne hmem hfront hvalue
  unfold nameAttribute?
  rw [hafter]
  split <;> rfl

theorem lastNameAttribute?_end {matching : Matching} {best : Option (Text × Text)}
    {afterBlank : Bool} {front rest : Text} (hquote : '"' ∉ front) (hend : '>' ∉ front) :
    lastNameAttribute? matching best afterBlank (front ++ '>' :: rest) = best := by
  induction front generalizing best afterBlank with
  | nil => rfl
  | cons c front ih =>
    have hmark : '"' ∈ ['=', '"'] := by simp
    have hlead : '>' ∉ nameKey ++ ['=', '"'] := by decide
    have hname := nameAttribute?_eq_none matching afterBlank rest hmark hlead hquote
    rw [List.cons_append] at hname ⊢
    rw [List.mem_cons, not_or] at hquote hend
    rw [lastNameAttribute?, if_neg (Ne.symm hend.1), hname, ih hquote.2 hend.2]
    rfl

/-! ## Candidates -/

namespace Attribute

/-- Whether the key counts as the name key. -/
def isNamed (matching : Matching) (a : Attribute) : Bool :=
  match matching with
  | .loose => nameKey.isSuffixOf a.key
  | .strict => a.key == nameKey

/-- The names that the search meets in an attribute, each with the text after its closing quote,
given the text behind the attribute. -/
def candidates (matching : Matching) (a : Attribute) (rest : Text) : List (Text × Text) :=
  (if a.isNamed matching && !a.value.isEmpty then [(a.value, rest)] else []) ++
    (if endsInName matching false a.value then (quotedValue? rest).toList else [])

variable {matching : Matching} (a : Attribute)

theorem append_nameKey_eq_iff {front : Text} :
    front ++ nameKey = a.gap ++ a.key ↔ ∃ more, front = a.gap ++ more ∧ more ++ nameKey = a.key := by
  constructor
  · intro h
    rcases List.append_eq_append_iff.mp h with ⟨more, hgap, hname⟩ | ⟨more, hfront, hkey⟩
    · cases more with
      | nil => exact ⟨[], by simpa using hgap.symm, by simpa using hname⟩
      | cons c more =>
        have hblank : Text.isBlank c = true := isBlank_of_mem_gap (a := a) (by simp [hgap])
        have hplain : nameKey.all (Text.isBlank · == false) = true := by decide
        rw [beq_iff_eq.mp (List.all_eq_true.mp hplain c (by simp [hname]))] at hblank
        cases hblank
    · exact ⟨more, hfront, hkey.symm⟩
  · rintro ⟨more, rfl, hkey⟩
    rw [List.append_assoc, hkey]

theorem endsInName_key :
    endsInName matching false (a.gap ++ (a.key ++ ['='])) = a.isNamed matching := by
  have hends : endsInName matching false (a.gap ++ (a.key ++ ['='])) = true ↔
      ∃ more, more ++ nameKey = a.key ∧
        (matching = .loose ∨ ((a.gap ++ more).getLast?.map Text.isBlank).getD false = true) := by
    simp only [endsInName_iff, ← List.append_assoc, List.append_cancel_right_eq,
      append_nameKey_eq_iff]
    constructor
    · rintro ⟨_, ⟨more, rfl, hkey⟩, hbefore⟩
      exact ⟨more, hkey, hbefore⟩
    · rintro ⟨more, hkey, hbefore⟩
      exact ⟨_, ⟨more, rfl, hkey⟩, hbefore⟩
  rw [Bool.eq_iff_iff, hends]
  cases matching with
  | loose => simp [isNamed, List.isSuffixOf_iff_suffix, List.IsSuffix]
  | strict =>
    simp only [isNamed, beq_iff_eq, reduceCtorEq, false_or]
    constructor
    · rintro ⟨more, hkey, hblank⟩
      rcases List.eq_nil_or_concat more with rfl | ⟨init, c, rfl⟩
      · exact hkey.symm
      · -- the character before the name key is part of the key, so it is no blank
        have hc : isKeyChar c = true :=
          List.all_eq_true.mp a.key_plain c (by simp [← hkey])
        simp [not_isBlank_of_isKeyChar hc] at hblank
    · intro hkey
      obtain ⟨init, c, hgap⟩ := (List.eq_nil_or_concat a.gap).resolve_left a.gap_ne_nil
      have hblank : Text.isBlank c = true := isBlank_of_mem_gap (a := a) (by simp [hgap])
      exact ⟨[], hkey.symm, by simp [hgap, hblank]⟩

theorem not_mem_opening {c : Char} (hkey : isKeyChar c = false) (hblank : Text.isBlank c = false)
    (hne : c ≠ '=') : c ∉ a.gap ++ (a.key ++ ['=']) := by
  intro hmem
  rcases List.mem_append.mp hmem with hgap | hmem
  · rw [isBlank_of_mem_gap hgap] at hblank
    cases hblank
  · rcases List.mem_append.mp hmem with hmem | hmem
    · rw [List.all_eq_true.mp a.key_plain c hmem] at hkey
      cases hkey
    · exact hne (List.mem_singleton.mp hmem)

theorem lastNameAttribute?_render {best : Option (Text × Text)} {rest : Text} :
    lastNameAttribute? matching best false (a.render ++ rest) =
      lastNameAttribute? matching ((a.candidates matching rest).getLast?.or best) false rest := by
  have hrender : a.render ++ rest =
      a.gap ++ (a.key ++ ['=']) ++ '"' :: (a.value ++ '"' :: rest) := by
    simp [Attribute.render]
  have hvalue : ∀ c, isValueChar c = false → c ∉ a.value := by
    intro c hc hmem
    rw [List.all_eq_true.mp a.value_plain c hmem] at hc
    cases hc
  -- the search passes the quote before the value and then the one behind it
  rw [hrender,
    lastNameAttribute?_quote (a.not_mem_opening rfl rfl (by decide))
      (a.not_mem_opening rfl rfl (by decide)),
    lastNameAttribute?_quote (hvalue '"' rfl) (hvalue '>' rfl), endsInName_key,
    quotedValue?_append (hvalue '"' rfl), candidates, List.getLast?_append]
  congr 1
  cases a.isNamed matching <;> cases endsInName matching false a.value <;>
    cases quotedValue? rest <;> cases a.value <;> simp

end Attribute

/-- The names that the search meets in a list of attributes. -/
def nameCandidates (matching : Matching) : List Attribute → Text → List (Text × Text)
  | [], _ => []
  | a :: more, rest =>
    a.candidates matching (more.flatMap Attribute.render ++ rest) ++ nameCandidates matching more rest

theorem lastNameAttribute?_attributes {matching : Matching} {best : Option (Text × Text)}
    {attributes : List Attribute} {rest : Text} :
    lastNameAttribute? matching best false (attributes.flatMap Attribute.render ++ rest) =
      lastNameAttribute? matching ((nameCandidates matching attributes rest).getLast?.or best) false
        rest := by
  induction attributes generalizing best with
  | nil => rfl
  | cons a more ih =>
    let behind := more.flatMap Attribute.render ++ rest
    calc
      lastNameAttribute? matching best false ((a :: more).flatMap Attribute.render ++ rest) =
          lastNameAttribute? matching ((a.candidates matching behind).getLast?.or best) false
            behind := by
        rw [List.flatMap_cons, List.append_assoc, Attribute.lastNameAttribute?_render]
      _ = lastNameAttribute? matching ((nameCandidates matching more rest).getLast?.or
          ((a.candidates matching behind).getLast?.or best)) false rest := ih
      _ = lastNameAttribute? matching
          ((nameCandidates matching (a :: more) rest).getLast?.or best) false rest := by
        rw [nameCandidates, List.getLast?_append, Option.or_assoc]

namespace Tag

/-- Whether the tag is taken for a tag of the kind. -/
def isOf (matching : Matching) (kind : DefKind) (tag : Tag) : Bool :=
  match matching with
  | .loose => kind.tag.isPrefixOf tag.name
  | .strict => tag.name == kind.tag

/-- The names that the search meets in a tag, given the text behind it. -/
def nameCandidates (matching : Matching) (tag : Tag) (alone : Bool) (rest : Text) :
    List (Text × Text) :=
  Markup.nameCandidates matching tag.attributes (tag.gap ++ (ending alone ++ rest))

variable (tag : Tag) (matching : Matching) (alone : Bool) (rest : Text)

theorem lastNameAttribute?_inside (best : Option (Text × Text)) :
    lastNameAttribute? matching best false (tag.inside ++ (ending alone ++ rest)) =
      (tag.nameCandidates matching alone rest).getLast?.or best := by
  have hending : ∃ front, tag.gap ++ (ending alone ++ rest) = front ++ '>' :: rest ∧
      '"' ∉ front ∧ '>' ∉ front := by
    have hgap : ∀ c, Text.isBlank c = false → c ∉ tag.gap := by
      intro c hc hmem
      rw [List.all_eq_true.mp tag.gap_blank c hmem] at hc
      cases hc
    cases alone with
    | false => exact ⟨tag.gap, by simp [ending], hgap '"' rfl, hgap '>' rfl⟩
    | true =>
      exact ⟨tag.gap ++ ['/'], by simp [ending], by simp [hgap '"' rfl], by simp [hgap '>' rfl]⟩
  obtain ⟨front, hfront, hquote, hend⟩ := hending
  calc
    lastNameAttribute? matching best false (tag.inside ++ (ending alone ++ rest)) =
        lastNameAttribute? matching best false
          (tag.attributes.flatMap Attribute.render ++ (tag.gap ++ (ending alone ++ rest))) := by
      rw [inside, List.append_assoc]
    _ = lastNameAttribute? matching ((tag.nameCandidates matching alone rest).getLast?.or best)
          false (tag.gap ++ (ending alone ++ rest)) := lastNameAttribute?_attributes
    _ = (tag.nameCandidates matching alone rest).getLast?.or best := by
      rw [hfront, lastNameAttribute?_end hquote hend]

/-- No name attribute begins inside the name of a tag. -/
theorem lastNameAttribute?_name {best : Option (Text × Text)} {name : Text}
    (h : ∀ c ∈ name, isNameChar c = true) :
    lastNameAttribute? matching best false (name ++ (tag.inside ++ (ending alone ++ rest))) =
      lastNameAttribute? matching best false (tag.inside ++ (ending alone ++ rest)) := by
  obtain ⟨d, after, htext, hd, _⟩ := tag.exists_delimiter alone rest
  rw [htext]
  have hne : ∀ c e, isNameChar c = true → isNameChar e = false → c ≠ e := by
    rintro c e hc he rfl
    rw [hc] at he
    cases he
  have hlead : d ∉ nameKey ++ ['=', '"'] := by
    intro hmem
    have hplain : (nameKey ++ ['=', '"']).all (TagPattern.isTagEnd · == false) = true := by decide
    rw [beq_iff_eq.mp (List.all_eq_true.mp hplain d hmem)] at hd
    cases hd
  induction name with
  | nil => rfl
  | cons c name ih =>
    have hc := h c List.mem_cons_self
    have hequality : '=' ∉ c :: name := fun hmem ↦ hne '=' '=' (h _ hmem) rfl rfl
    have hmark : '=' ∈ ['=', '"'] := by simp
    have hnone := nameAttribute?_eq_none matching false after hmark hlead hequality
    have hblank : Text.isBlank c = false := by
      unfold isNameChar at hc
      exact not_isBlank_of_isKeyChar (Bool.and_eq_true_iff.mp hc).1
    rw [List.cons_append] at hnone ⊢
    rw [lastNameAttribute?, if_neg (hne c '>' hc rfl), hnone, Option.none_or, hblank]
    exact ih fun e he ↦ h e (List.mem_cons_of_mem _ he)

theorem after?_render {kind : DefKind} {more : Text} (hmore : kind.tag ++ more = tag.name) :
    Text.after? ('<' :: kind.tag) (tag.render alone ++ rest) =
      some (more ++ (tag.inside ++ (ending alone ++ rest))) := by
  have hrender : tag.render alone ++ rest =
      '<' :: (tag.name ++ (tag.inside ++ (ending alone ++ rest))) := by
    simp [render]
  calc
    Text.after? ('<' :: kind.tag) (tag.render alone ++ rest) =
        Text.after? ('<' :: kind.tag)
          (('<' :: kind.tag) ++ (more ++ (tag.inside ++ (ending alone ++ rest)))) := by
      rw [hrender, ← hmore, List.append_assoc, ← List.cons_append]
    _ = some (more ++ (tag.inside ++ (ending alone ++ rest))) := Text.after?_append _ _

theorem after?_render_eq_none {kind : DefKind} (h : ¬∃ more, kind.tag ++ more = tag.name) :
    Text.after? ('<' :: kind.tag) (tag.render alone ++ rest) = none := by
  have hrender : tag.render alone ++ rest =
      '<' :: (tag.name ++ (tag.inside ++ (ending alone ++ rest))) := by
    simp [render]
  obtain ⟨d, after, htext, hd, _⟩ := tag.exists_delimiter alone rest
  rw [Option.eq_none_iff_forall_ne_some]
  intro inner hinner
  rw [Text.after?_eq_some_iff, hrender, List.cons_append, List.cons_inj_right, htext,
    append_eq_name_iff (fun c hc ↦ isNameChar_of_mem_tag hc) hd] at hinner
  obtain ⟨more, hmore, _⟩ := hinner
  exact h ⟨more, hmore⟩

theorem isOf_loose_iff {kind : DefKind} :
    tag.isOf .loose kind = true ↔ ∃ more, kind.tag ++ more = tag.name :=
  List.isPrefixOf_iff_prefix

theorem isOf_strict_iff {kind : DefKind} : tag.isOf .strict kind = true ↔ kind.tag = tag.name := by
  rw [isOf, beq_iff_eq]
  exact eq_comm

theorem namedTag?_render_loose (kind : DefKind) :
    namedTag? .loose kind (tag.render alone ++ rest) =
      if tag.isOf .loose kind then (tag.nameCandidates .loose alone rest).getLast? else none := by
  unfold namedTag?
  by_cases hprefix : ∃ more, kind.tag ++ more = tag.name
  · rw [if_pos (tag.isOf_loose_iff.mpr hprefix)]
    obtain ⟨more, hmore⟩ := hprefix
    have hplain : ∀ c ∈ more, isNameChar c = true := fun c hc ↦
      List.all_eq_true.mp tag.name_plain c (by simp [← hmore, hc])
    have hinside := tag.lastNameAttribute?_inside .loose alone rest none
    rw [Option.or_none] at hinside
    rw [tag.after?_render alone rest hmore, ← hinside]
    exact tag.lastNameAttribute?_name .loose alone rest hplain
  · rw [tag.after?_render_eq_none alone rest hprefix, if_neg (mt tag.isOf_loose_iff.mp hprefix)]

theorem namedTag?_render_strict (kind : DefKind) :
    namedTag? .strict kind (tag.render alone ++ rest) =
      if tag.isOf .strict kind then (tag.nameCandidates .strict alone rest).getLast? else none := by
  have hinside := tag.lastNameAttribute?_inside .strict alone rest none
  rw [Option.or_none] at hinside
  obtain ⟨d, after, htext, _, hattributes⟩ := tag.exists_delimiter alone rest
  unfold namedTag?
  by_cases hprefix : ∃ more, kind.tag ++ more = tag.name
  · obtain ⟨more, hmore⟩ := hprefix
    rw [tag.after?_render alone rest hmore]
    cases more with
    | nil =>
      rw [List.append_nil] at hmore
      rw [if_pos (tag.isOf_strict_iff.mpr hmore), ← hinside, List.nil_append, htext]
      by_cases hblank : Text.isBlank d = true
      · have hend : d ≠ '>' := by
          rintro rfl
          cases hblank
        simp [hblank, lastNameAttribute?, hend, nameAttribute?]
      · -- without a blank behind its name the tag has no attributes
        have hnil : tag.attributes = [] := by
          by_contra hne
          exact hblank (hattributes hne)
        rw [← htext, hinside, nameCandidates, hnil, htext]
        simp [hblank, Markup.nameCandidates]
    | cons c more =>
      have hc : isNameChar c = true :=
        List.all_eq_true.mp tag.name_plain c (by simp [← hmore])
      have hisOf : tag.isOf .strict kind = false := by
        simp [isOf, ← hmore]
      simp [hisOf, not_isBlank_of_isKeyChar (Bool.and_eq_true_iff.mp hc).1]
  · have hisOf : ¬tag.isOf .strict kind = true := fun hisOf ↦
      hprefix ⟨[], by rw [List.append_nil, tag.isOf_strict_iff.mp hisOf]⟩
    rw [tag.after?_render_eq_none alone rest hprefix, if_neg hisOf]

theorem namedTag?_render (kind : DefKind) :
    namedTag? matching kind (tag.render alone ++ rest) =
      if tag.isOf matching kind then (tag.nameCandidates matching alone rest).getLast? else none := by
  cases matching with
  | loose => exact tag.namedTag?_render_loose alone rest kind
  | strict => exact tag.namedTag?_render_strict alone rest kind

end Tag

/-- Whether the search goes on behind the last attribute as if a name began there. -/
def runsAway (matching : Matching) (attributes : List Attribute) : Bool :=
  attributes.getLast?.any fun a ↦ endsInName matching false a.value

theorem quotedValue?_append_right {text rest : Text} {found : Text × Text}
    (h : quotedValue? text = some found) :
    quotedValue? (text ++ rest) = some (found.1, found.2 ++ rest) := by
  obtain ⟨hvalue, hplain, hsplit⟩ := quotedValue?_eq_some_iff.mp h
  exact quotedValue?_eq_some_iff.mpr ⟨hvalue, hplain, by rw [← hsplit]; simp⟩

theorem Attribute.quotedValue?_render (a : Attribute) (rest : Text) :
    quotedValue? (a.render ++ rest) =
      some (a.gap ++ (a.key ++ ['=']), a.value ++ '"' :: rest) := by
  refine quotedValue?_eq_some_iff.mpr ⟨by simp [a.gap_ne_nil], a.not_mem_opening rfl rfl (by decide), ?_⟩
  simp [Attribute.render]

/-- Only the last attribute can make the search take text behind the attributes for a name. -/
theorem nameCandidates_eq {matching : Matching} {attributes : List Attribute} {rest : Text} :
    nameCandidates matching attributes rest =
      (nameCandidates matching attributes []).map (fun found ↦ (found.1, found.2 ++ rest)) ++
        (if runsAway matching attributes then (quotedValue? rest).toList else []) := by
  induction attributes with
  | nil => rfl
  | cons a more ih =>
    rw [nameCandidates, ih, nameCandidates, List.map_append]
    simp only [Attribute.candidates]
    cases more with
    | nil =>
      have hempty : quotedValue? [] = none := rfl
      have hrun : runsAway matching [a] = endsInName matching false a.value := by
        simp [runsAway]
      simp only [List.flatMap_nil, List.nil_append, hempty, hrun]
      cases a.isNamed matching && !a.value.isEmpty <;>
        cases endsInName matching false a.value <;> simp [nameCandidates, runsAway]
    | cons b later =>
      -- the name that the value of `a` may open ends at the first quote of `b`
      have hrun : runsAway matching (a :: b :: later) = runsAway matching (b :: later) := by
        simp [runsAway]
      have hquoted := b.quotedValue?_render (later.flatMap Attribute.render)
      rw [← List.flatMap_cons] at hquoted
      simp only [List.append_nil, hquoted, quotedValue?_append_right hquoted, hrun]
      cases a.isNamed matching && !a.value.isEmpty <;>
        cases endsInName matching false a.value <;> simp

theorem not_mem_of_mem_nameCandidates {matching : Matching} {attributes : List Attribute}
    {found : Text × Text} (h : found ∈ nameCandidates matching attributes []) : '<' ∉ found.2 := by
  induction attributes with
  | nil => cases h
  | cons a more ih =>
    rw [nameCandidates, List.mem_append] at h
    rcases h with h | h
    · have hmore : '<' ∉ more.flatMap Attribute.render ++ [] := by
        rw [List.append_nil, List.mem_flatMap]
        rintro ⟨b, _, hb⟩
        exact not_mem_render (Or.inl rfl) hb
      rw [Attribute.candidates, List.mem_append] at h
      rcases h with h | h
      · split at h
        · rw [List.mem_singleton.mp h]
          exact hmore
        · cases h
      · split at h
        · obtain ⟨_, _, hsplit⟩ := quotedValue?_eq_some_iff.mp (Option.mem_toList.mp h)
          intro hmem
          rw [← hsplit] at hmore
          exact hmore (List.mem_append_right _ (List.mem_cons_of_mem _ hmem))
        · cases h
    · exact ih h

end Markup

end DefCatalog
