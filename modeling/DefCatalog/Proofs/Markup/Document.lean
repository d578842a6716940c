import DefCatalog.Markup.TagSpan
import Mathlib.Data.List.Basic

/-!
# Documents as trees

A well-formed document is a sequence of texts and elements, and the content of an element is such a
sequence again. Names, keys and values hold none of the marks that delimit them, which the types
guarantee, so the marks in the written form of a document are those that the renderer put there.
-/

namespace DefCatalog.Markup

/-- Whether a character may stand in the key of an attribute: it is no blank, no bracket, no quote
and no equality sign. -/
def isKeyChar (c : Char) : Bool :=
  !(Text.isBlank c || c == '<' || c == '>' || c == '=' || c == '"' || c == '\'')

/-- Whether a character may stand in the name of an element, where a slash is excluded too. -/
def isNameChar (c : Char) : Bool :=
  isKeyChar c && c != '/'

/-- Whether a character may stand in the value of an attribute. -/
def isValueChar (c : Char) : Bool :=
  !(c == '"' || c == '<' || c == '>')

/-- An attribute, with the blanks before it. -/
structure Attribute where
  gap : Text
  key : Text
  value : Text
  gap_ne_nil : gap ≠ [] := by decide
  gap_blank : gap.all Text.isBlank = true := by decide
  key_ne_nil : key ≠ [] := by decide
  key_plain : key.all isKeyChar = true := by decide
  value_plain : value.all isValueChar = true := by decide

def Attribute.render (a : Attribute) : Text :=
  a.gap ++ (a.key ++ '=' :: '"' :: (a.value ++ ['"']))

/-- The name and the attributes of an element, with the blanks after them. -/
structure Tag where
  name : Text
  attributes : List Attribute
  gap : Text := []
  name_ne_nil : name ≠ [] := by decide
  name_plain : name.all isNameChar = true := by decide
  gap_blank : gap.all Text.isBlank = true := by decide
  nodup_keys : (attributes.map Attribute.key).Nodup := by decide

namespace Tag

/-- What stands between the name and the end of the tag. -/
def inside (tag : Tag) : Text :=
  tag.attributes.flatMap Attribute.render ++ tag.gap

/-- The marks at the end of a tag, which tell whether the element consists of this tag alone. -/
def ending (alone : Bool) : Text :=
  if alone then ['/', '>'] else ['>']

def render (tag : Tag) (alone : Bool) : Text :=
  '<' :: (tag.name ++ (tag.inside ++ ending alone))

/-- The tag after the content of an element. -/
def closing (tag : Tag) : Text :=
  '<' :: '/' :: (tag.name ++ ['>'])

end Tag

/-- A sequence of texts and elements. -/
inductive Content where
  | nothing
  | text (chunk : Text) (plain : '<' ∉ chunk) (rest : Content)
  /-- An element between an opening and a closing tag. -/
  | element (tag : Tag) (content rest : Content)
  /-- An element that consists of one tag. -/
  | single (tag : Tag) (rest : Content)

namespace Content

/-- The written form. -/
def render : Content → Text
  | nothing => []
  | text chunk _ rest => chunk ++ rest.render
  | element tag content rest =>
    tag.render false ++ (content.render ++ (tag.closing ++ rest.render))
  | single tag rest => tag.render true ++ rest.render

/-- The tags of the elements, in the order in which they begin. -/
def tags : Content → List Tag
  | nothing => []
  | text _ _ rest => rest.tags
  | element tag content rest => tag :: (content.tags ++ rest.tags)
  | single tag rest => tag :: rest.tags

/-- The text that a sequence without elements consists of. -/
def onlyText? : Content → Option Text
  | nothing => some []
  | text chunk _ rest => rest.onlyText?.map (chunk ++ ·)
  | element _ _ _ | single _ _ => none

end Content

theorem not_isBlank_of_isAlpha {c : Char} (h : c.isAlpha = true) : Text.isBlank c = false := by
  have hrange : 65 ≤ c.toNat ∧ c.toNat ≤ 122 := by
    change (decide (c.val ≥ 65 ∧ c.val ≤ 90) ||
      decide (c.val ≥ 97) && decide (c.val ≤ 122)) = true at h
    simp only [Bool.or_eq_true, Bool.and_eq_true, decide_eq_true_eq, ge_iff_le,
      UInt32.le_iff_toNat_le] at h
    change (65 ≤ c.toNat ∧ c.toNat ≤ 90) ∨ (97 ≤ c.toNat ∧ c.toNat ≤ 122) at h
    omega
  simp only [Text.isBlank, Bool.or_eq_false_iff, Bool.and_eq_false_iff, decide_eq_false_iff_not,
    beq_eq_false_iff_ne]
  omega

theorem isNameChar_of_isAlpha {c : Char} (h : c.isAlpha = true) : isNameChar c = true := by
  have hne : ∀ d : Char, d.isAlpha = false → c ≠ d := by
    rintro d hd rfl
    rw [h] at hd
    cases hd
  simp [isNameChar, isKeyChar, not_isBlank_of_isAlpha h, hne '<' rfl, hne '>' rfl, hne '=' rfl,
    hne '"' rfl, hne '\'' rfl, hne '/' rfl]

theorem isNameChar_of_mem_tag {kind : DefKind} {c : Char} (h : c ∈ kind.tag) :
    isNameChar c = true :=
  isNameChar_of_isAlpha (List.all_eq_true.mp kind.tag_letters c h)

theorem not_isTagEnd_of_isNameChar {c : Char} (h : isNameChar c = true) :
    TagPattern.isTagEnd c = false := by
  simp only [isNameChar, isKeyChar, Bool.and_eq_true, Bool.not_eq_true', Bool.or_eq_false_iff,
    bne_iff_ne, ne_eq, beq_eq_false_iff_ne] at h
  simp [TagPattern.isTagEnd, h]

theorem not_isBlank_of_isKeyChar {c : Char} (h : isKeyChar c = true) :
    Text.isBlank c = false := by
  simp only [isKeyChar, Bool.not_eq_true', Bool.or_eq_false_iff] at h
  exact h.1.1.1.1.1

theorem isBlank_of_mem_gap {a : Attribute} {c : Char} (h : c ∈ a.gap) : Text.isBlank c = true :=
  List.all_eq_true.mp a.gap_blank c h

theorem not_mem_render {a : Attribute} {c : Char} (h : c = '<' ∨ c = '>') : c ∉ a.render := by
  intro hmem
  have hkey := List.all_eq_true.mp a.key_plain c
  have hvalue := List.all_eq_true.mp a.value_plain c
  have hgap := List.all_eq_true.mp a.gap_blank c
  simp only [Attribute.render, List.mem_append, List.mem_cons, List.not_mem_nil, or_false] at hmem
  rcases h with rfl | rfl <;> simp_all [isKeyChar, isValueChar, Text.isBlank]

namespace Tag

variable {tag : Tag}

theorem not_mem_inside {c : Char} (h : c = '<' ∨ c = '>') : c ∉ tag.inside := by
  intro hmem
  rcases List.mem_append.mp hmem with hattributes | hgap
  · obtain ⟨a, _, ha⟩ := List.mem_flatMap.mp hattributes
    exact not_mem_render h ha
  · have hblank := List.all_eq_true.mp tag.gap_blank c hgap
    rcases h with rfl | rfl <;> simp [Text.isBlank] at hblank

theorem not_mem_name {c : Char} (h : isNameChar c = false) : c ∉ tag.name := by
  intro hmem
  rw [List.all_eq_true.mp tag.name_plain c hmem] at h
  cases h

theorem not_mem_ending {alone : Bool} : '<' ∉ ending alone := by
  cases alone <;> decide

theorem not_mem_tail_render (tag : Tag) (alone : Bool) :
    '<' ∉ tag.name ++ (tag.inside ++ ending alone) := by
  simp [tag.not_mem_name (c := '<') rfl, tag.not_mem_inside (c := '<') (Or.inl rfl), not_mem_ending]

theorem not_mem_tail_closing (tag : Tag) : '<' ∉ '/' :: (tag.name ++ ['>']) := by
  simp [tag.not_mem_name (c := '<') rfl]

theorem render_append (tag : Tag) (alone : Bool) (rest : Text) :
    tag.render alone ++ rest = '<' :: (tag.name ++ (tag.inside ++ ending alone) ++ rest) :=
  rfl

theorem closing_append (tag : Tag) (rest : Text) :
    tag.closing ++ rest = '<' :: ('/' :: (tag.name ++ ['>']) ++ rest) :=
  rfl

theorem exists_delimiter (tag : Tag) (alone : Bool) (rest : Text) :
    ∃ c after, tag.inside ++ (ending alone ++ rest) = c :: after ∧
      TagPattern.isTagEnd c = true ∧ (tag.attributes ≠ [] → Text.isBlank c = true) := by
  unfold inside
  cases hattributes : tag.attributes with
  | cons a more =>
    obtain ⟨blank, gap, hgap⟩ := List.exists_cons_of_ne_nil a.gap_ne_nil
    have hblank : Text.isBlank blank = true := isBlank_of_mem_gap (a := a) (by simp [hgap])
    refine ⟨blank, _, by simp [Attribute.render, hgap]; rfl, ?_, fun _ ↦ hblank⟩
    simp [TagPattern.isTagEnd, hblank]
  | nil =>
    cases hgap : tag.gap with
    | cons blank gap =>
      have hblank : Text.isBlank blank = true :=
        List.all_eq_true.mp tag.gap_blank blank (by simp [hgap])
      refine ⟨blank, _, by simp; rfl, ?_, fun _ ↦ hblank⟩
      simp [TagPattern.isTagEnd, hblank]
    | nil =>
      cases alone with
      | false => exact ⟨'>', rest, rfl, rfl, fun h ↦ absurd rfl h⟩
      | true => exact ⟨'/', '>' :: rest, rfl, rfl, fun h ↦ absurd rfl h⟩

/-- A name can begin a text that begins with the name of a tag only by beginning that name. -/
theorem append_eq_name_iff {lead after name rest : Text} {d : Char}
    (hlead : ∀ c ∈ lead, isNameChar c = true) (hd : TagPattern.isTagEnd d = true) :
    lead ++ after = name ++ d :: rest ↔
      ∃ more, lead ++ more = name ∧ after = more ++ d :: rest := by
  constructor
  · intro h
    rcases List.append_eq_append_iff.mp h with ⟨more, htag, hafter⟩ | ⟨more, hlead', hrest⟩
    · exact ⟨more, htag.symm, hafter⟩
    · cases more with
      | nil => exact ⟨[], by simpa using hlead', by simpa using hrest.symm⟩
      | cons e more =>
        obtain ⟨rfl, _⟩ := List.cons.inj hrest
        rw [not_isTagEnd_of_isNameChar (hlead d (by simp [hlead']))] at hd
        cases hd
  · rintro ⟨more, rfl, rfl⟩
    rw [List.append_assoc]

/-- A name with the mark that ends it begins another one only if the two names are the same. -/
theorem append_delimiter_eq_iff {lead after name rest : Text} {c d : Char}
    (hlead : ∀ e ∈ lead, isNameChar e = true) (hname : ∀ e ∈ name, isNameChar e = true)
    (hc : TagPattern.isTagEnd c = true) (hd : TagPattern.isTagEnd d = true) :
    lead ++ c :: after = name ++ d :: rest ↔ lead = name ∧ c = d ∧ after = rest := by
  rw [append_eq_name_iff hlead hd]
  constructor
  · rintro ⟨more, rfl, hmore⟩
    cases more with
    | nil => exact ⟨(List.append_nil _).symm, List.cons.inj hmore⟩
    | cons e more =>
      obtain ⟨rfl, _⟩ := List.cons.inj hmore
      rw [not_isTagEnd_of_isNameChar (hname c (by simp))] at hc
      cases hc
  · rintro ⟨rfl, rfl, rfl⟩
    exact ⟨[], List.append_nil _, rfl⟩

end Tag

end DefCatalog.Markup
