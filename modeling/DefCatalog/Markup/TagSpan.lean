import DefCatalog.Markup.Kind
import DefCatalog.Text.Blank

/-!
# Occurrences of tags

The places where the opening and the closing tag of a kind stand in a document. They are collected
once, in document order, and a binary search then answers which of them is the last one before a
given position.
-/

namespace DefCatalog

/-- How closely a tag or an attribute has to be spelled as expected. -/
inductive Matching where
  /-- A longer name that begins with the tag, or ends with the attribute's name, counts too. -/
  | loose
  /-- Only the whole tag and the whole attribute name count. -/
  | strict
deriving DecidableEq, Repr

/-- The spelling of a tag: a `<` with a text after it, and whether a tag end has to follow
directly. -/
structure TagPattern where
  /-- What follows the `<`. -/
  tail : Text
  bounded : Bool
  /-- There is no second `<`, so two occurrences cannot overlap. -/
  tail_plain : '<' ∉ tail
deriving DecidableEq, Repr

/-- The positions of the first character of an occurrence and of the first one after it. -/
structure TagSpan where
  start : Nat
  stop : Nat
deriving DecidableEq, Repr

namespace TagPattern

/-- What ends the name of a tag: a blank, `>` or `/`. -/
def isTagEnd (c : Char) : Bool :=
  Text.isBlank c || c == '>' || c == '/'

/-- The spelling as a whole. -/
def lead (pattern : TagPattern) : Text :=
  '<' :: pattern.tail

/-- The number of characters that end an occurrence, given the text after the spelling. A bounded
occurrence includes the character that ends the tag's name. -/
def endWidth? (pattern : TagPattern) (inner : Text) : Option Nat :=
  match pattern.bounded, inner with
  | false, _ => some 0
  | true, [] => none
  | true, c :: _ => if isTagEnd c then some 1 else none

/-- The occurrences in a text that begins at the given position. Where the spelling is found, the
search goes on right after it, also if no tag end follows. -/
def spansFrom (pattern : TagPattern) (position : Nat) (text : Text) : List TagSpan :=
  match text with
  | [] => []
  | c :: rest =>
    match _h : Text.after? pattern.lead (c :: rest) with
    | none => pattern.spansFrom (position + 1) rest
    | some inner =>
      let stop := position + pattern.lead.length
      let found := (pattern.endWidth? inner).map fun width ↦ (⟨position, stop + width⟩ : TagSpan)
      found.toList ++ pattern.spansFrom stop inner
termination_by text.length
decreasing_by
  · simp
  · have happend := Text.after?_eq_some_iff.mp _h
    rw [← happend]
    simp only [lead, List.length_append, List.length_cons]
    omega

/-- The occurrences in a document, in order. -/
def spans (pattern : TagPattern) (text : Text) : Array TagSpan :=
  (spansFrom pattern 0 text).toArray

end TagPattern

namespace DefKind

/-- The opening tag: `<Tag`, and in strict matching the character that ends the name. -/
def opening (kind : DefKind) : Matching → TagPattern
  | .loose => ⟨kind.tag, false, kind.not_mem_tag rfl⟩
  | .strict => ⟨kind.tag, true, kind.not_mem_tag rfl⟩

/-- The closing tag: `</Tag>`, and in strict matching `</Tag` with the character that ends the
name. -/
def closing (kind : DefKind) : Matching → TagPattern
  | .loose => ⟨'/' :: (kind.tag ++ ['>']), false, by simp [kind.not_mem_tag]⟩
  | .strict => ⟨'/' :: kind.tag, true, by simp [kind.not_mem_tag]⟩

end DefKind

namespace TagSpan

/-- The number of leading spans that end at or before the limit, by halving the range in which the
first span beyond it lies. The spans have to be sorted by their ends. -/
def countUpTo (spans : Array TagSpan) (limit : Nat) : Nat :=
  go 0 spans.size
where
  go (low high : Nat) : Nat :=
    if low < high then
      let middle := (low + high) / 2
      match spans[middle]? with
      | some span => if span.stop ≤ limit then go (middle + 1) high else go low middle
      | none => low
    else low
  termination_by high - low

/-- Where the last span starts that lies wholly before the limit. -/
def lastStartBefore? (spans : Array TagSpan) (limit : Nat) : Option Nat :=
  match countUpTo spans limit with
  | 0 => none
  | count + 1 => spans[count]?.map TagSpan.start

end TagSpan

/-- The opening and closing tags of one kind in a document. -/
structure TagOccurrences where
  key : Text
  openings : Array TagSpan
  closings : Array TagSpan

namespace TagOccurrences

/-- Collects the tags of a kind. -/
def collect (matching : Matching) (text : Text) (kind : DefKind) : TagOccurrences where
  key := kind.key
  openings := (kind.opening matching).spans text
  closings := (kind.closing matching).spans text

/-- Whether the last opening tag before the position comes after the last closing tag before it. -/
def isOpenAt (tags : TagOccurrences) (position : Nat) : Bool :=
  match TagSpan.lastStartBefore? tags.openings position with
  | none => false
  | some opened =>
    match TagSpan.lastStartBefore? tags.closings position with
    | none => true
    | some closed => closed < opened

end TagOccurrences

end DefCatalog
