import DefCatalog.Time.Calendar

/-!
# Instants

Points in time to the nanosecond. During a leap second the nanoseconds go on counting beyond one
thousand million, so that it comes after the second before it and before the next one.
-/

namespace DefCatalog

/-- A point in time. -/
structure Instant where
  /-- The whole seconds since the beginning of 1970. -/
  seconds : Int
  /-- The nanoseconds after them. -/
  nanoseconds : Nat
deriving DecidableEq, Repr

namespace Instant

/-- Instants are compared by seconds first. -/
def lt (a b : Instant) : Bool :=
  a.seconds < b.seconds || (a.seconds == b.seconds && a.nanoseconds < b.nanoseconds)

instance : LT Instant where
  lt a b := lt a b = true

instance (a b : Instant) : Decidable (a < b) :=
  inferInstanceAs (Decidable (lt a b = true))

theorem lt_iff {a b : Instant} :
    a < b ↔ a.seconds < b.seconds ∨ a.seconds = b.seconds ∧ a.nanoseconds < b.nanoseconds := by
  change lt a b = true ↔ _
  simp [lt]

end Instant

end DefCatalog
