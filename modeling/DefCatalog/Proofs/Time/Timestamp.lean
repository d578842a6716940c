import DefCatalog.Proofs.Number.Decimal
import DefCatalog.Proofs.Text.Pieces
import DefCatalog.Proofs.Time.Calendar
import DefCatalog.Time.Timestamp
import Mathlib.Data.List.TakeWhile

/-!
# Reading timestamps back

The instants that have a timestamp are those in the years that can be read, with a leap second only
at the end of a minute. Every one of them is read back from the text that is written for it, to the
nanosecond, and reading gives no others, whatever form the text has.
-/

namespace DefCatalog.Timestamp

open Decimal (isDigit padded value)

variable {rest text : Text} {n : Nat}

/-- Whether a text does not go on with digits before it. -/
def EndsDigits (text : Text) : Prop :=
  ∀ c rest, text = c :: rest → isDigit c = false

theorem endsDigits_cons {c : Char} (h : isDigit c = false) : EndsDigits (c :: rest) := by
  intro head tail heq
  rw [← (List.cons.inj heq).1]
  exact h

theorem isBlank_of_isDigit {c : Char} (h : isDigit c = true) : Text.isBlank c = false := by
  have hbounds := Decimal.toNat_of_isDigit h
  simp only [Text.isBlank, Bool.or_eq_false_iff, Bool.and_eq_false_iff, decide_eq_false_iff_not,
    beq_eq_false_iff_ne]
  omega

theorem exists_padded_eq_cons (width n : Nat) :
    ∃ c more, padded width n = c :: more ∧ isDigit c = true := by
  obtain ⟨c, more, heq⟩ := List.exists_cons_of_ne_nil (Decimal.padded_ne_nil width n)
  exact ⟨c, more, heq, Decimal.isDigit_of_mem_padded (heq ▸ List.mem_cons_self)⟩

theorem skipBlanks_padded (width n : Nat) (rest : Text) :
    skipBlanks (padded width n ++ rest) = padded width n ++ rest := by
  obtain ⟨c, more, heq, hdigit⟩ := exists_padded_eq_cons width n
  rw [heq, List.cons_append, skipBlanks, List.dropWhile_cons, isBlank_of_isDigit hdigit]
  rfl

theorem takeWhile_padded (width n : Nat) (hrest : EndsDigits rest) :
    (padded width n ++ rest).takeWhile isDigit = padded width n ∧
      (padded width n ++ rest).dropWhile isDigit = rest :=
  Text.takeWhile_dropWhile_append (fun _ ↦ Decimal.isDigit_of_mem_padded) hrest

theorem anyNumber?_padded (width n : Nat) (hrest : EndsDigits rest) :
    anyNumber? (padded width n ++ rest) = some (n, rest) := by
  obtain ⟨htake, hdrop⟩ := takeWhile_padded width n hrest
  unfold anyNumber?
  rw [htake, hdrop]
  simp [Decimal.padded_ne_nil, Decimal.value_padded]

theorem number?_padded (width : Nat) (h : n < 10 ^ (width + 1)) (rest : Text) :
    number? (width + 1) (padded (width + 1) n ++ rest) = some (n, rest) := by
  have hlength := Decimal.length_padded width h
  have hdigits : (padded (width + 1) n).takeWhile isDigit = padded (width + 1) n :=
    List.takeWhile_eq_self_iff.mpr fun c ↦ Decimal.isDigit_of_mem_padded
  unfold number?
  rw [List.take_left' hlength, hdigits]
  simp [Decimal.padded_ne_nil, Decimal.value_padded]

theorem field?_padded {low high : Nat} (h : n < 100) (hlow : low ≤ n) (hhigh : n ≤ high)
    (rest : Text) : field? low high (padded 2 n ++ rest) = some (n, rest) := by
  unfold field?
  rw [skipBlanks_padded, number?_padded 1 h]
  exact if_pos ⟨hlow, hhigh⟩

theorem mark?_cons {c : Char} (h : Text.isBlank c = false) (rest : Text) :
    mark? c (c :: rest) = some rest := by
  unfold mark? skipBlanks
  rw [List.dropWhile_cons, h]
  exact if_pos rfl

theorem year?_yearText (year : Int) (hrest : EndsDigits rest) :
    year? (yearText year ++ rest) = some (year, rest) := by
  unfold yearText
  split
  · rename_i hfour
    have hdigits : year.toNat < 10 ^ 4 := by omega
    have hnumber := number?_padded 3 hdigits rest
    obtain ⟨c, more, heq, hdigit⟩ := exists_padded_eq_cons 4 year.toNat
    have hsign : c ≠ '-' ∧ c ≠ '+' := by
      constructor <;> rintro rfl <;> revert hdigit <;> decide
    have hcast : (year.toNat : Int) = year := Int.toNat_of_nonneg hfour.1
    rw [heq] at hnumber
    unfold year?
    rw [skipBlanks_padded, heq, List.cons_append]
    split
    · rename_i hminus
      exact absurd (List.cons.inj hminus).1 hsign.1
    · rename_i hplus
      exact absurd (List.cons.inj hplus).1 hsign.2
    · rw [← List.cons_append, hnumber, Option.map_some]
      dsimp only
      rw [hcast]
  · split
    · rename_i hpositive
      have hcast : (year.toNat : Int) = year := Int.toNat_of_nonneg hpositive
      have hyear : year? ('+' :: padded 4 year.toNat ++ rest) =
          (anyNumber? (padded 4 year.toNat ++ rest)).map fun found ↦ ((found.1 : Int), found.2) :=
        rfl
      rw [hyear, anyNumber?_padded 4 _ hrest, Option.map_some]
      dsimp only
      rw [hcast]
    · rename_i hnegative
      have hcast : -((-year).toNat : Int) = year := by omega
      have hyear : year? ('-' :: padded 4 (-year).toNat ++ rest) =
          (anyNumber? (padded 4 (-year).toNat ++ rest)).map fun found ↦ (-(found.1 : Int), found.2) :=
        rfl
      rw [hyear, anyNumber?_padded 4 _ hrest, Option.map_some]
      dsimp only
      rw [hcast]

theorem fraction?_padded {width : Nat} (hwidth : width < 9) (h : n < 10 ^ (width + 1))
    (hrest : EndsDigits rest) :
    fraction? ('.' :: padded (width + 1) n ++ rest) = some (n * 10 ^ (9 - (width + 1)), rest) := by
  obtain ⟨htake, hdrop⟩ := takeWhile_padded (width + 1) n hrest
  have hlength := Decimal.length_padded width h
  have hkept : (padded (width + 1) n).take 9 = padded (width + 1) n :=
    List.take_of_length_le (by omega)
  unfold fraction?
  simp only [List.cons_append]
  rw [htake, hdrop, hkept, hlength, Decimal.value_append_zeros, Decimal.value_padded]
  simp [Decimal.padded_ne_nil]

theorem fraction?_fractionText (h : n < second) (hrest : EndsDigits rest)
    (hpoint : ∀ more, rest ≠ '.' :: more) :
    fraction? (fractionText n ++ rest) = some (n, rest) := by
  unfold second at h
  unfold fractionText
  split
  · rename_i hzero
    rw [hzero, List.nil_append]
    unfold fraction?
    split
    · rename_i more
      exact absurd rfl (hpoint more)
    · rfl
  · split
    · rename_i hmillis
      rw [fraction?_padded (by decide) (by omega) hrest]
      have hexact : n / 1000000 * 10 ^ (9 - (2 + 1)) = n := by omega
      rw [hexact]
    · split
      · rename_i hmicros
        rw [fraction?_padded (by decide) (by omega) hrest]
        have hexact : n / 1000 * 10 ^ (9 - (5 + 1)) = n := by omega
        rw [hexact]
      · rw [fraction?_padded (by decide) (by omega) hrest]
        have hexact : n * 10 ^ (9 - (8 + 1)) = n := by omega
        rw [hexact]

/-- Whether an instant has a timestamp. All instants of the years 0 to 9999 are among these, and
those of the leap seconds at the end of a minute. -/
structure IsStampable (instant : Instant) : Prop where
  first_le : Date.toDays ⟨firstYear, 1, 1⟩ ≤ instant.seconds / 86400
  le_last : instant.seconds / 86400 ≤ Date.toDays ⟨lastYear, 12, 31⟩
  nanoseconds_lt : instant.nanoseconds < second ∨
    instant.seconds % 60 = 59 ∧ instant.nanoseconds < 2 * second

theorem instant?_ofDays {seconds : Int}
    (hfirst : Date.toDays ⟨firstYear, 1, 1⟩ ≤ seconds / 86400)
    (hlast : seconds / 86400 ≤ Date.toDays ⟨lastYear, 12, 31⟩) (nanoseconds : Nat) :
    instant? (Date.ofDays (seconds / 86400)) (seconds % 86400).toNat nanoseconds 0 =
      some ⟨seconds, nanoseconds⟩ := by
  have hseconds : seconds / 86400 * 86400 + (seconds % 86400).toNat - 0 = seconds := by omega
  unfold instant?
  rw [Date.toDays_ofDays, hseconds]
  exact if_pos ⟨Date.isValid_ofDays _, Date.le_year_ofDays hfirst, Date.year_ofDays_le hlast,
    hfirst, hlast⟩

/-- The fields of a written timestamp are read one after the other. -/
theorem read?_fields {date : Date} {hour minute sec nanoseconds : Nat} (hdate : date.IsValid)
    (hhour : hour ≤ 23) (hminute : minute ≤ 59) (hsec : sec ≤ 60)
    (hnanoseconds : nanoseconds < second) :
    read? (yearText date.year ++ '-' :: padded 2 date.month ++ '-' :: padded 2 date.day ++
      'T' :: padded 2 hour ++ ':' :: padded 2 minute ++ ':' :: padded 2 sec ++
      fractionText nanoseconds ++ zulu) =
      if sec = 60 then
        instant? date (hour * 3600 + minute * 60 + 59) (nanoseconds + second) 0
      else instant? date (hour * 3600 + minute * 60 + sec) nanoseconds 0 := by
  obtain ⟨hmonth, hmonth', hday, hday'⟩ := hdate
  have hdays : date.day ≤ 31 := Nat.le_trans hday' (Date.daysInMonth_le date.year date.month)
  have hyears (rest : Text) : year? (yearText date.year ++ '-' :: rest) =
      some (date.year, '-' :: rest) := year?_yearText date.year (endsDigits_cons rfl)
  have hdash (rest : Text) : mark? '-' ('-' :: rest) = some rest := mark?_cons (by decide) rest
  have hcolon (rest : Text) : mark? ':' (':' :: rest) = some rest := mark?_cons (by decide) rest
  have hmonths (rest : Text) := field?_padded (n := date.month) (by omega) hmonth hmonth' rest
  have hdays (rest : Text) := field?_padded (n := date.day) (by omega) hday hdays rest
  have hhours (rest : Text) := field?_padded (n := hour) (by omega) (Nat.zero_le hour) hhour rest
  have hminutes (rest : Text) :=
    field?_padded (n := minute) (by omega) (Nat.zero_le minute) hminute rest
  have hsecs (rest : Text) := field?_padded (n := sec) (by omega) (Nat.zero_le sec) hsec rest
  have hseparator (rest : Text) : separator? ('T' :: rest) = some rest := rfl
  have hfraction : fraction? (fractionText nanoseconds ++ zulu) = some (nanoseconds, zulu) :=
    fraction?_fractionText hnanoseconds (endsDigits_cons rfl) (by simp [zulu])
  have hzone : offset? (skipBlanks zulu) = some (0, []) := by decide
  have hend : skipBlanks [] = [] ∧ (-86400 : Int) < 0 ∧ (0 : Int) < 86400 := by decide
  simp only [List.append_assoc, List.cons_append]
  unfold read?
  dsimp only [bind, Option.bind]
  simp only [hyears, hdash, hcolon, hmonths, hdays, hhours, hminutes, hsecs, hseparator, hfraction,
    hzone, if_pos hend]

/-- Every instant that has a timestamp is read back from it. -/
theorem read?_write {instant : Instant} (h : IsStampable instant) :
    read? (write zulu instant) = some instant := by
  obtain ⟨seconds, nanoseconds⟩ := instant
  obtain ⟨hfirst, hlast, hnanoseconds⟩ := h
  have hdate := Date.isValid_ofDays (seconds / 86400)
  have hinstant := instant?_ofDays hfirst hlast
  have hday : (seconds % 86400).toNat < 86400 := by omega
  have hminute : seconds % 60 = 59 ↔ (seconds % 86400).toNat % 60 = 59 := by omega
  unfold write
  dsimp only at hnanoseconds hinstant ⊢
  rw [hminute] at hnanoseconds
  generalize (seconds % 86400).toNat = secondOfDay at *
  rcases Nat.lt_or_ge nanoseconds second with hlt | hge
  · have hclock : secondOfDay / 3600 * 3600 + secondOfDay / 60 % 60 * 60 + secondOfDay % 60 =
        secondOfDay := by omega
    rw [if_neg (Nat.not_le.mpr hlt), Nat.zero_mul, Nat.sub_zero, Nat.add_zero,
      read?_fields hdate (by omega) (by omega) (by omega) hlt, if_neg (by omega), hclock, hinstant]
  · obtain ⟨hlast, hlt⟩ := hnanoseconds.resolve_left (Nat.not_lt.mpr hge)
    have hclock : secondOfDay / 3600 * 3600 + secondOfDay / 60 % 60 * 60 + 59 = secondOfDay := by
      omega
    rw [if_pos hge, Nat.one_mul, hlast,
      read?_fields hdate (by omega) (by omega) (by decide) (by omega), if_pos rfl,
      Nat.sub_add_cancel hge, hclock, hinstant]

theorem lt_of_fraction? (h : fraction? text = some (n, rest)) : n < second := by
  unfold fraction? at h
  split at h
  · rename_i more
    dsimp only at h
    split at h
    · cases h
    · cases h
      -- the digits that are kept are filled up to nine
      have hdigits : ∀ c ∈ (more.takeWhile isDigit).take 9 ++
          List.replicate (9 - ((more.takeWhile isDigit).take 9).length) '0', isDigit c = true := by
        intro c hc
        rcases List.mem_append.mp hc with hkept | hzero
        · exact List.mem_takeWhile_imp (List.mem_of_mem_take hkept)
        · rw [List.eq_of_mem_replicate hzero]
          decide
      have hlength : ((more.takeWhile isDigit).take 9 ++
          List.replicate (9 - ((more.takeWhile isDigit).take 9).length) '0').length = 9 := by
        rw [List.length_append, List.length_replicate]
        have hmost := List.length_take_le 9 (more.takeWhile isDigit)
        omega
      have hvalue := Decimal.value_lt hdigits
      rw [hlength] at hvalue
      exact hvalue
  · cases h
    decide

theorem mod_of_offset? {offset : Int} (h : offset? text = some (offset, rest)) :
    offset % 60 = 0 := by
  have hvalue {sign tail : Text} {seconds : Nat} (hread : offsetValue? sign = some (seconds, tail)) :
      seconds % 60 = 0 := by
    unfold offsetValue? at hread
    split at hread
    · split at hread
      · split at hread
        · split at hread
          · cases hread
            omega
          · cases hread
        · cases hread
      · cases hread
    · cases hread
  unfold offset? at h
  dsimp only at h
  split at h
  · cases h
    rfl
  · split at h
    · cases h
    · split at h
      · cases h
        rfl
      · split at h
        · obtain ⟨⟨seconds, tail⟩, hread, heq⟩ := Option.map_eq_some_iff.mp h
          cases heq
          have hminutes := hvalue hread
          omega
        · split at h
          · obtain ⟨⟨seconds, tail⟩, hread, heq⟩ := Option.map_eq_some_iff.mp h
            cases heq
            have hminutes := hvalue hread
            omega
          · cases h

theorem instant?_eq_some {date : Date} {secondOfDay nanoseconds : Nat} {offset : Int}
    {instant : Instant} (h : instant? date secondOfDay nanoseconds offset = some instant) :
    instant.seconds = date.toDays * 86400 + secondOfDay - offset ∧
      instant.nanoseconds = nanoseconds ∧
      Date.toDays ⟨firstYear, 1, 1⟩ ≤ instant.seconds / 86400 ∧
      instant.seconds / 86400 ≤ Date.toDays ⟨lastYear, 12, 31⟩ := by
  unfold instant? at h
  dsimp only at h
  split at h
  · rename_i hyears
    cases h
    exact ⟨rfl, rfl, hyears.2.2.2⟩
  · cases h

/-- Every instant that is read has a timestamp. -/
theorem isStampable_of_read? {instant : Instant} (h : read? text = some instant) :
    IsStampable instant := by
  unfold read? at h
  dsimp only [Option.bind_eq_bind] at h
  simp only [↓Option.bind_eq_some_iff, ↓Prod.exists] at h
  obtain ⟨year, rest₁, _, rest₂, _, month, rest₃, _, rest₄, _, day, rest₅, _, rest₆, _, hour, rest₇,
    _, rest₈, _, minute, rest₉, _, rest₁₀, _, sec, rest₁₁, _, nanoseconds, rest₁₂, hfraction, offset,
    rest₁₃, hoffset, hend⟩ := h
  have hnanoseconds := lt_of_fraction? hfraction
  have hminutes := mod_of_offset? hoffset
  split at hend
  · split at hend
    · obtain ⟨hseconds, hnanos, hfirst, hlast⟩ := instant?_eq_some hend
      refine ⟨hfirst, hlast, Or.inr ⟨?_, ?_⟩⟩
      · rw [hseconds]
        omega
      · omega
    · obtain ⟨_, hnanos, hfirst, hlast⟩ := instant?_eq_some hend
      exact ⟨hfirst, hlast, Or.inl (hnanos ▸ hnanoseconds)⟩
  · cases hend

end DefCatalog.Timestamp
