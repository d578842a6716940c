import DefCatalog.Text.Basic
import Mathlib.Data.List.Perm.Basic

/-!
# The order of texts

Texts are ordered as in a dictionary. The order is total, so a sorted list of texts does not depend
on the order in which the texts came.
-/

namespace DefCatalog.Text

variable {s t u : Text}

theorem le_total (s t : Text) : (le s t || le t s) = true := by
  induction s generalizing t with
  | nil => simp [le]
  | cons a s ih =>
    cases t with
    | nil => simp [le]
    | cons b t =>
      by_cases hab : a = b
      · subst hab
        simpa [le] using ih t
      · have hne : a.toNat ≠ b.toNat := fun heq ↦ hab (Char.toNat_inj.mp heq)
        simp only [le, if_neg hab, if_neg (Ne.symm hab), Bool.or_eq_true, decide_eq_true_eq]
        omega

theorem le_trans (hst : le s t = true) (htu : le t u = true) : le s u = true := by
  induction s generalizing t u with
  | nil => rfl
  | cons a s ih =>
    cases t with
    | nil => cases hst
    | cons b t =>
      cases u with
      | nil => cases htu
      | cons c u =>
        by_cases hab : a = b
        · subst hab
          by_cases hac : a = c
          · simp only [le, if_pos hac, if_true] at hst htu ⊢
            exact ih hst htu
          · simpa only [le, if_neg hac] using htu
        · by_cases hbc : b = c
          · subst hbc
            simpa only [le, if_neg hab] using hst
          · simp only [le, if_neg hab, if_neg hbc, decide_eq_true_eq] at hst htu
            have hac : a ≠ c := by
              rintro rfl
              omega
            simp only [le, if_neg hac, decide_eq_true_eq]
            omega

theorem le_antisymm (hst : le s t = true) (hts : le t s = true) : s = t := by
  induction s generalizing t with
  | nil =>
    cases t with
    | nil => rfl
    | cons b t => cases hts
  | cons a s ih =>
    cases t with
    | nil => cases hst
    | cons b t =>
      by_cases hab : a = b
      · subst hab
        simp only [le, if_true] at hst hts
        rw [ih hst hts]
      · simp only [le, if_neg hab, if_neg (Ne.symm hab), decide_eq_true_eq] at hst hts
        omega

theorem mergeSort_congr {texts texts' : List Text} (h : texts.Perm texts') :
    texts.mergeSort le = texts'.mergeSort le := by
  have htrans : ∀ a b c : Text, le a b = true → le b c = true → le a c = true :=
    fun _ _ _ ↦ le_trans
  apply List.Perm.eq_of_pairwise (fun _ _ _ _ ↦ le_antisymm)
    (List.pairwise_mergeSort htrans le_total texts)
    (List.pairwise_mergeSort htrans le_total texts')
  exact (List.mergeSort_perm texts le).trans (h.trans (List.mergeSort_perm texts' le).symm)

theorem filter_mergeSort (p : Text → Bool) (texts : List Text) :
    (texts.mergeSort le).filter p = (texts.filter p).mergeSort le := by
  have htrans : ∀ a b c : Text, le a b = true → le b c = true → le a c = true :=
    fun _ _ _ ↦ le_trans
  have hsorted : ((texts.mergeSort le).filter p).Pairwise fun a b ↦ le a b = true :=
    (List.pairwise_mergeSort htrans le_total texts).filter p
  apply List.Perm.eq_of_pairwise (fun _ _ _ _ ↦ le_antisymm) hsorted
    (List.pairwise_mergeSort htrans le_total (texts.filter p))
  exact ((List.mergeSort_perm texts le).filter p).trans
    (List.mergeSort_perm (texts.filter p) le).symm

end DefCatalog.Text
