import DefCatalog.Number.Binary
import DefCatalog.Text.Basic

/-!
# Progress

A scan reports after each folder how far it has come.
-/

namespace DefCatalog

/-- The report on a finished folder. -/
structure Progress where
  /-- The position of the folder, counted from one. -/
  current : Nat
  total : Nat
  name : Text
deriving DecidableEq, Repr

namespace Progress

/-- The greatest percentage that is told apart: the largest number of 32 bits. -/
def maxPercent : Nat := 4294967295

/-- The share of finished folders in percent, computed with numbers of 53 significant bits and then
rounded, a half going up. A scan without folders is finished. -/
def percent (progress : Progress) : Nat :=
  if progress.total = 0 then 100
  else
    let share := (Binary.ofNat progress.current).div (Binary.ofNat progress.total)
    min maxPercent (share.scaleBy 100).round

example : percent ⟨1, 3, []⟩ = 33 ∧ percent ⟨1, 8, []⟩ = 13 ∧ percent ⟨3, 3, []⟩ = 100 := by decide

end Progress

end DefCatalog
