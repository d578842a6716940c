import DefCatalog.Proofs.Json.Spelling

/-!
# How printed strings are spelled

A printed string is spelled as the grammar has it. A character below the space without a mark of
its own is printed as a unit, so not each piece is read back as it was, but the string stands for
the same text.
-/

namespace DefCatalog.Json

/-- Whether a character is written as a unit. -/
def isWrittenAsUnit (c : Char) : Bool :=
  c < ' ' && !(c ∈ ['\x08', '\x0c', '\n', '\r', '\t'])

/-- A piece of a string as it is read back. -/
def Piece.reread : Piece → Piece
  | .char c => if isWrittenAsUnit c then .unit c.toNat else .char c
  | .unit value => .unit (value % 0x10000)

theorem isHexDigit_hexChar : ∀ n < 16, IsHexDigit (hexChar n) n := by
  unfold IsHexDigit
  decide

theorem spelledBy_unitText (unit : Nat) :
    (Piece.unit (unit % 0x10000)).SpelledBy (unitText unit) := by
  have hdigit (n : Nat) : IsHexDigit (hexChar (n % 16)) (n % 16) :=
    isHexDigit_hexChar _ (Nat.mod_lt _ (by decide))
  have hvalue : unit % 0x10000 = unit / 0x1000 % 16 * 0x1000 + unit / 0x100 % 16 * 0x100 +
      unit / 0x10 % 16 * 0x10 + unit % 16 := by omega
  rw [hvalue]
  exact .unit (hdigit _) (hdigit _) (hdigit _) (hdigit _)

theorem spelledBy_charText (c : Char) : (Piece.char c).reread.SpelledBy (charText c) := by
  unfold charText
  split
  · subst c
    exact .escape (by decide)
  split
  · subst c
    exact .escape (by decide)
  split
  · subst c
    exact .escape (by decide)
  split
  · subst c
    exact .escape (by decide)
  split
  · subst c
    exact .escape (by decide)
  split
  · subst c
    exact .escape (by decide)
  split
  · subst c
    exact .escape (by decide)
  split
  · rename_i hspace
    have hreread : (Piece.char c).reread = .unit c.toNat := by
      refine if_pos ?_
      simp_all [isWrittenAsUnit]
    have hsmall : c.toNat % 0x10000 = c.toNat :=
      Nat.mod_eq_of_lt (Nat.lt_trans (Char.lt_def.mp hspace) (by decide))
    have hspelled := spelledBy_unitText c.toNat
    rwa [hsmall, ← hreread] at hspelled
  · rename_i hquote hslash _ _ _ _ _ hspace
    have hunit : isWrittenAsUnit c = false := by
      simp [isWrittenAsUnit, hspace]
    rw [Piece.reread, hunit]
    exact .self hspace hquote hslash

theorem spelledBy_pieceText (piece : Piece) : piece.reread.SpelledBy (pieceText piece) := by
  cases piece with
  | char c => exact spelledBy_charText c
  | unit value => exact spelledBy_unitText value

theorem spelledBy_stringText (body : StringBody) :
    (Token.string (body.map Piece.reread)).SpelledBy (stringText body) := by
  have hbody : SpellsBody (body.map Piece.reread) (body.flatMap pieceText) := by
    induction body with
    | nil => exact .nil
    | cons piece body ih =>
      rw [List.map_cons, List.flatMap_cons]
      exact .cons (spelledBy_pieceText piece) ih
  exact .string hbody

theorem textOf?_unit {unit : Nat} (h : unit < 0xD800) (rest : StringBody) :
    textOf? (.unit unit :: rest) = (textOf? rest).map (Char.ofNat unit :: ·) := by
  have hhigh : isHighUnit unit = false := by
    simp [isHighUnit]
    omega
  have hlow : isLowUnit unit = false := by
    simp [isLowUnit]
    omega
  cases rest with
  | nil => simp [textOf?, hhigh, hlow]
  | cons piece rest => cases piece <;> simp [textOf?, hhigh, hlow]

theorem textOf?_reread (text : Text) : textOf? ((ofText text).map Piece.reread) = some text := by
  induction text with
  | nil => rfl
  | cons c rest ih =>
    unfold ofText at ih ⊢
    rw [List.map_cons, List.map_cons, Piece.reread]
    split
    · rename_i hunit
      have hspace : c < ' ' := by
        simp only [isWrittenAsUnit, Bool.and_eq_true, decide_eq_true_eq] at hunit
        exact hunit.1
      have hsmall : c.toNat < 0xD800 := Nat.lt_trans (Char.lt_def.mp hspace) (by decide)
      rw [textOf?_unit hsmall, ih, Char.ofNat_toNat]
      rfl
    · rw [textOf?, ih]
      rfl

end DefCatalog.Json
