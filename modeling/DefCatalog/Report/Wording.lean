import DefCatalog.Time.Timestamp

/-!
# Wording

The parts of messages that are the business of whoever shows them.
-/

namespace DefCatalog

/-- How some parts of messages are written. -/
structure Wording where
  /-- The time when a cache was built. -/
  builtAt : Instant → String
  /-- The cause of an error when a document is not the expected JSON record. -/
  malformed : String

namespace Wording

/-- The usual wording. -/
def standard : Wording where
  builtAt instant := String.ofList (Timestamp.write Timestamp.zeroOffset instant)
  malformed := "the document is not the expected JSON record"

end Wording

end DefCatalog
