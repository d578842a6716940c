import DefCatalog.Number.Decimal
import Mathlib.Algebra.Group.Nat.Defs
import Mathlib.Data.List.Induction

/-!
# Digits of numbers

The digits of a number are digits, there is at least one of them, and a number that is small enough
for a width has exactly as many with zeros in front.
-/

namespace DefCatalog.Decimal

theorem toNat_of_isDigit {c : Char} (h : isDigit c = true) : 48 ≤ c.toNat ∧ c.toNat ≤ 57 := by
  simpa [isDigit, Char.le_def, UInt32.le_iff_toNat_le] using h

theorem isDigit_digitChar : ∀ n < 10, isDigit (digitChar n) = true := by
  decide

theorem isDigit_of_mem_digits {n : Nat} {c : Char} (h : c ∈ digits n) :
    isDigit c = true := by
  fun_induction digits n with
  | case1 n hn =>
    rw [List.mem_singleton] at h
    rw [h]
    exact isDigit_digitChar n hn
  | case2 n hn ih =>
    rcases List.mem_append.mp h with hfront | hlast
    · exact ih hfront
    · rw [List.mem_singleton] at hlast
      rw [hlast]
      exact isDigit_digitChar _ (Nat.mod_lt n (by decide))

theorem digits_ne_nil (n : Nat) : digits n ≠ [] := by
  unfold digits
  split <;> simp

theorem head?_digits (n : Nat) : n = 0 ∨ (digits n).head? ≠ some '0' := by
  fun_induction digits n with
  | case1 n hn =>
    have hall : ∀ n < 10, n = 0 ∨ [digitChar n].head? ≠ some '0' := by decide
    exact hall n hn
  | case2 n hn ih =>
    right
    rcases ih with hzero | hhead
    · omega
    · obtain ⟨c, more, hdigits⟩ := List.exists_cons_of_ne_nil (digits_ne_nil (n / 10))
      rw [hdigits] at hhead ⊢
      exact hhead

theorem length_digits_le {n : Nat} (width : Nat) (h : n < 10 ^ (width + 1)) :
    (digits n).length ≤ width + 1 := by
  induction width generalizing n with
  | zero =>
    rw [digits, if_pos (by omega)]
    exact Nat.le_refl 1
  | succ width ih =>
    rw [digits]
    split
    · exact Nat.le_add_left 1 (width + 1)
    · have hfront : n / 10 < 10 ^ (width + 1) := by
        rw [Nat.div_lt_iff_lt_mul (by decide), ← Nat.pow_succ]
        exact h
      rw [List.length_append, List.length_singleton]
      exact Nat.succ_le_succ (ih hfront)

theorem length_padded {n : Nat} (width : Nat) (h : n < 10 ^ (width + 1)) :
    (padded (width + 1) n).length = width + 1 := by
  have hdigits := length_digits_le width h
  rw [padded, List.length_append, List.length_replicate]
  omega

theorem isDigit_of_mem_padded {width n : Nat} {c : Char} (h : c ∈ padded width n) :
    isDigit c = true := by
  rcases List.mem_append.mp h with hzero | hdigit
  · rw [List.eq_of_mem_replicate hzero]
    decide
  · exact isDigit_of_mem_digits hdigit

theorem padded_ne_nil (width n : Nat) : padded width n ≠ [] := by
  unfold padded
  simp [digits_ne_nil]

variable {text : Text}

theorem value_append_zeros (text : Text) (count : Nat) :
    value (text ++ List.replicate count '0') = value text * 10 ^ count := by
  induction count with
  | zero => simp
  | succ count ih =>
    have hzero : digitValue '0' = 0 := rfl
    calc
      value (text ++ List.replicate (count + 1) '0') =
          10 * value (text ++ List.replicate count '0') + digitValue '0' := by
        rw [List.replicate_succ', ← List.append_assoc, value_append_singleton]
      _ = 10 * (value text * 10 ^ count) := by rw [ih, hzero, Nat.add_zero]
      _ = value text * 10 ^ (count + 1) := by rw [Nat.pow_succ, Nat.mul_comm 10, Nat.mul_assoc]

theorem digitValue_lt {c : Char} (h : isDigit c = true) : digitValue c < 10 := by
  have hbounds := toNat_of_isDigit h
  have hzero : '0'.toNat = 48 := rfl
  unfold digitValue
  omega

theorem value_lt (h : ∀ c ∈ text, isDigit c = true) : value text < 10 ^ text.length := by
  induction text using List.reverseRecOn with
  | nil => decide
  | append_singleton text c ih =>
    have hfront := ih fun d hd ↦ h d (List.mem_append_left _ hd)
    have hlast := digitValue_lt (h c (List.mem_append_right _ (List.mem_singleton.mpr rfl)))
    rw [value_append_singleton, List.length_append, List.length_singleton, Nat.pow_succ]
    omega

end DefCatalog.Decimal
