/-!
# Text

Documents, names, lines and paths are lists of characters, so that a scanner is a recursion on its
input and a position in a text is the number of characters before it.
-/

namespace DefCatalog

/-- A text, as the list of its characters. -/
abbrev Text := List Char

namespace Text

/-- What follows `lead`, if the text begins with it. -/
def after? : (lead text : Text) → Option Text
  | [], text => some text
  | _ :: _, [] => none
  | a :: lead, b :: text => if a = b then after? lead text else none

/-- Whether `needle` occurs in the text as a block of neighbouring characters. -/
def contains (needle : Text) : Text → Bool
  | [] => needle.isEmpty
  | c :: rest => needle.isPrefixOf (c :: rest) || contains needle rest

/-- The pieces between the separators; a text without separators is one piece. -/
def splitOn (separator : Char) : Text → List Text
  | [] => [[]]
  | c :: rest =>
    if c = separator then [] :: splitOn separator rest
    else match splitOn separator rest with
      | [] => [[c]]
      | piece :: pieces => (c :: piece) :: pieces

/-- The order of texts by code points, which is also the order of their UTF-8 bytes. -/
def le : Text → Text → Bool
  | [], _ => true
  | _ :: _, [] => false
  | a :: s, b :: t => if a = b then le s t else a.toNat < b.toNat

/-- Some entries, sorted by the texts that they are shown as. Entries that are shown alike stay in
the order in which they are given. -/
def sortOn {Entry : Type} (shown : Entry → Text) (entries : List Entry) : List Entry :=
  entries.mergeSort fun first second ↦ le (shown first) (shown second)

theorem after?_eq_some_iff {lead text rest : Text} :
    after? lead text = some rest ↔ lead ++ rest = text := by
  induction lead generalizing text with
  | nil => simp [after?, eq_comm]
  | cons a lead ih =>
    cases text with
    | nil => simp [after?]
    | cons b text =>
      by_cases hab : a = b
      · simp [after?, hab, ih]
      · simp [after?, hab]

@[simp]
theorem after?_append (lead rest : Text) : after? lead (lead ++ rest) = some rest :=
  after?_eq_some_iff.mpr rfl

theorem splitOn_ne_nil (separator : Char) (text : Text) : splitOn separator text ≠ [] := by
  cases text with
  | nil => simp [splitOn]
  | cons c rest =>
    unfold splitOn
    split
    · simp
    · split <;> simp

theorem intercalate_splitOn (separator : Char) (text : Text) :
    [separator].intercalate (splitOn separator text) = text := by
  induction text with
  | nil => rfl
  | cons c rest ih =>
    obtain ⟨piece, pieces, hsplit⟩ :=
      List.exists_cons_of_ne_nil (splitOn_ne_nil separator rest)
    rw [hsplit] at ih
    by_cases hc : c = separator
    · simp only [splitOn, hc, if_true, hsplit]
      rw [← ih]
      simp [List.intercalate, List.intersperse]
    · simp only [splitOn, hc, if_false, hsplit]
      rw [← ih]
      cases pieces <;> simp [List.intercalate, List.intersperse]

theorem contains_iff {needle text : Text} :
    contains needle text = true ↔ needle <:+: text := by
  induction text with
  | nil => simp [contains]
  | cons c rest ih =>
    simp only [contains, Bool.or_eq_true, ih, List.infix_cons_iff, List.isPrefixOf_iff_prefix]

end Text

end DefCatalog
