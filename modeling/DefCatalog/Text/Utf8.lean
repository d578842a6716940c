import DefCatalog.Text.Basic

/-!
# UTF-8

Texts as bytes. The decoder reads one byte at a time and knows, inside a character, which bytes may
come next. Where a byte does not fit, the bytes of the character so far are one malformed piece and
the byte is read again as the first of the next character. A reader of documents puts U+FFFD for
each malformed piece; a reader of settings and caches refuses the whole text.
-/

namespace DefCatalog

/-- A sequence of bytes, such as the content of a file. -/
abbrev Bytes := List UInt8

namespace Utf8

/-- The bytes of a text. -/
def encode (text : Text) : Bytes :=
  text.flatMap String.utf8EncodeChar

/-- How far the character at the reading position has been read. -/
inductive State where
  /-- A character begins here. -/
  | start
  /-- The bits read so far, the bounds of the next byte, and how many bytes are missing. -/
  | inside (code : Nat) (low high : UInt8) (missing : Nat)
deriving DecidableEq, Repr

/-- Reads the first byte of a character. `none` stands for a malformed piece. -/
def begin (byte : UInt8) : List (Option Char) × State :=
  let n := byte.toNat
  if n < 0x80 then ([some (Char.ofNat n)], .start)
  else if n < 0xC2 then ([none], .start)
  else if n < 0xE0 then ([], .inside (n - 0xC0) 0x80 0xBF 1)
  else if n = 0xE0 then ([], .inside 0 0xA0 0xBF 2)
  else if n = 0xED then ([], .inside 0xD 0x80 0x9F 2)
  else if n < 0xF0 then ([], .inside (n - 0xE0) 0x80 0xBF 2)
  else if n = 0xF0 then ([], .inside 0 0x90 0xBF 3)
  else if n < 0xF4 then ([], .inside (n - 0xF0) 0x80 0xBF 3)
  else if n = 0xF4 then ([], .inside 4 0x80 0x8F 3)
  else ([none], .start)

/-- Reads one byte. -/
def step : State → UInt8 → List (Option Char) × State
  | .start, byte => begin byte
  | .inside code low high missing, byte =>
    if low ≤ byte ∧ byte ≤ high then
      let code := code * 64 + byte.toNat % 64
      if missing ≤ 1 then ([some (Char.ofNat code)], .start)
      else ([], .inside code 0x80 0xBF (missing - 1))
    else
      let (pieces, state) := begin byte
      (none :: pieces, state)

/-- The characters and malformed pieces of the remaining bytes. -/
def piecesFrom : State → Bytes → List (Option Char)
  | .start, [] => []
  | .inside _ _ _ _, [] => [none]
  | state, byte :: rest => (step state byte).1 ++ piecesFrom (step state byte).2 rest

/-- What has been read so far: the state and, latest first, the pieces. -/
structure Reading where
  state : State := .start
  latest : List (Option Char) := []

/-- Reads one more byte. -/
def Reading.next (reading : Reading) (byte : UInt8) : Reading :=
  let (pieces, state) := step reading.state byte
  ⟨state, pieces.reverse ++ reading.latest⟩

/-- The pieces of a reading that ends here. A character that is not complete is malformed. -/
def Reading.pieces (reading : Reading) : List (Option Char) :=
  match reading.state with
  | .start => reading.latest.reverse
  | .inside _ _ _ _ => (none :: reading.latest).reverse

/-- The characters and malformed pieces of a sequence of bytes. -/
def pieces (bytes : Bytes) : List (Option Char) :=
  (bytes.foldl Reading.next {}).pieces

/-- The text of some bytes, with U+FFFD for each malformed piece. -/
def decodeLossy (bytes : Bytes) : Text :=
  (pieces bytes).map fun piece ↦ piece.getD '\uFFFD'

/-- The text of some bytes, if nothing in them is malformed. -/
def decode? (bytes : Bytes) : Option Text :=
  (pieces bytes).mapM id

theorem pieces_foldl_next (reading : Reading) (bytes : Bytes) :
    (bytes.foldl Reading.next reading).pieces =
      reading.latest.reverse ++ piecesFrom reading.state bytes := by
  induction bytes generalizing reading with
  | nil =>
    obtain ⟨state, latest⟩ := reading
    cases state <;> simp [Reading.pieces, piecesFrom]
  | cons byte rest ih =>
    rw [List.foldl_cons, ih]
    simp [Reading.next, piecesFrom]

theorem pieces_eq_piecesFrom (bytes : Bytes) : pieces bytes = piecesFrom .start bytes := by
  rw [pieces, pieces_foldl_next]
  rfl

example : decodeLossy [0x61, 0xE2, 0x82, 0x62] = ['a', '\uFFFD', 'b'] := by decide

example : decode? [0xC3, 0xA9] = some ['é'] := by decide

end Utf8

end DefCatalog
