import DefCatalog.Files.Path

/-!
# Paths for display

The system keeps a path as bytes, which need not be UTF-8. A message shows a text, with `~` for a
home directory and U+FFFD for what is not UTF-8.
-/

namespace DefCatalog

/-- A path as the system keeps it. -/
structure RawPath where
  bytes : Bytes
deriving DecidableEq, Repr

namespace RawPath

/-- The path with the spelling of a text. -/
def ofText (text : Text) : RawPath :=
  ⟨Utf8.encode text⟩

/-- The path with one character for each byte. Paths are taken apart at slashes and dots, which are
single bytes and no part of any other character. -/
def bytewise (path : RawPath) : Path :=
  ⟨path.bytes.map fun byte ↦ Char.ofNat byte.toNat⟩

/-- The path whose bytes are the characters of another one. -/
def ofBytewise (path : Path) : RawPath :=
  ⟨path.spelling.map fun c ↦ UInt8.ofNat c.toNat⟩

/-- The steps of a path, whose names have one character for each byte. -/
def components (path : RawPath) : List Path.Component :=
  path.bytewise.components

/-- The path with `~` for a home directory at its head. -/
def shorten (path home : RawPath) : RawPath :=
  ofBytewise (path.bytewise.shorten home.bytewise)

/-- The text that stands for the path in messages. -/
def display (path : RawPath) : Text :=
  Utf8.decodeLossy path.bytes

example : ((ofText "/h/é/x".toList).shorten (ofText "/h/é".toList)).display = "~/x".toList := by
  decide

end RawPath

end DefCatalog
