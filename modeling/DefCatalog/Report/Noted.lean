import DefCatalog.Report.Notice

/-!
# Noted values

A computation that tells its host what it does is a value together with notices. Computations one
after the other give their notices one after the other.
-/

namespace DefCatalog

/-- A value with the notices that were given on the way to it, oldest first. -/
structure Noted (α : Type) where
  value : α
  notices : List Notice := []

namespace Noted

instance : Monad Noted where
  pure value := ⟨value, []⟩
  bind first next := ⟨(next first.value).value, first.notices ++ (next first.value).notices⟩

@[simp]
theorem value_pure {α : Type} (value : α) : (pure value : Noted α).value = value := rfl

@[simp]
theorem notices_pure {α : Type} (value : α) : (pure value : Noted α).notices = [] := rfl

@[simp]
theorem value_bind {α β : Type} (first : Noted α) (next : α → Noted β) :
    (first >>= next).value = (next first.value).value := rfl

@[simp]
theorem notices_bind {α β : Type} (first : Noted α) (next : α → Noted β) :
    (first >>= next).notices = first.notices ++ (next first.value).notices := rfl

/-- Gives some notices. -/
def tell (notices : List Notice) : Noted Unit :=
  ⟨(), notices⟩

@[simp]
theorem value_tell (notices : List Notice) : (tell notices).value = () := rfl

@[simp]
theorem notices_tell (notices : List Notice) : (tell notices).notices = notices := rfl

/-- The reports on finished folders among the notices. -/
def progress {α : Type} (noted : Noted α) : List Progress :=
  noted.notices.filterMap fun
    | .progress progress => some progress
    | _ => none

end Noted

end DefCatalog
