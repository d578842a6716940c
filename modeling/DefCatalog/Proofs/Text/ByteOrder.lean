import DefCatalog.Proofs.Text.Order
import DefCatalog.Text.Utf8
import Mathlib.Tactic.SplitIfs

/-!
# The order of bytes

The order of texts by code points is the order of their UTF-8 bytes, since a character with a higher
code point has a first byte that is not lower, and where the first bytes agree the same holds of the
bytes after them.
-/

namespace DefCatalog.Utf8

variable {m n : Nat} {rest rest' : Bytes} {s t : Text}

theorem ofNat_cons_lt_iff (hm : m < 256) (hn : n < 256) :
    UInt8.ofNat m :: rest < UInt8.ofNat n :: rest' ↔ m < n ∨ m = n ∧ rest < rest' := by
  have hmono : UInt8.ofNat m < UInt8.ofNat n ↔ m < n := UInt8.ofNat_lt_iff_lt hm hn
  have hinj : UInt8.ofNat m = UInt8.ofNat n ↔ m = n := by
    constructor
    · intro heq
      have hsame := congrArg UInt8.toNat heq
      rwa [UInt8.toNat_ofNat', UInt8.toNat_ofNat', Nat.mod_eq_of_lt hm,
        Nat.mod_eq_of_lt hn] at hsame
    · rintro rfl
      rfl
  rw [List.cons_lt_cons_iff, hmono, hinj]

/-- Numbers are compared by their digits in base 64, the highest one first. -/
theorem digits_lt {v w : Nat} (h : v < w) (hw : w < 0x110000) :
    v / 262144 % 8 < w / 262144 % 8 ∨ v / 262144 % 8 = w / 262144 % 8 ∧
      (v / 4096 % 64 < w / 4096 % 64 ∨ v / 4096 % 64 = w / 4096 % 64 ∧
        (v / 64 % 64 < w / 64 % 64 ∨ v / 64 % 64 = w / 64 % 64 ∧ v % 64 < w % 64)) := by
  rcases (by omega : v / 262144 < w / 262144 ∨ v / 262144 = w / 262144) with hfirst | hfirst
  · omega
  refine Or.inr ⟨by rw [hfirst], ?_⟩
  rcases (by omega : v / 4096 < w / 4096 ∨ v / 4096 = w / 4096) with hsecond | hsecond
  · omega
  refine Or.inr ⟨by rw [hsecond], ?_⟩
  rcases (by omega : v / 64 < w / 64 ∨ v / 64 = w / 64) with hthird | hthird
  · omega
  exact Or.inr ⟨by rw [hthird], by omega⟩

theorem utf8EncodeChar_append_lt {a b : Char} (h : a.toNat < b.toNat) (rest rest' : Bytes) :
    String.utf8EncodeChar a ++ rest < String.utf8EncodeChar b ++ rest' := by
  obtain ⟨v, hv⟩ : ∃ v, v = a.val.toNat := ⟨_, rfl⟩
  obtain ⟨w, hw⟩ : ∃ w, w = b.val.toNat := ⟨_, rfl⟩
  have hlt : v < w := by rwa [hv, hw]
  have hvalid : w < 0xD800 ∨ 0xDFFF < w ∧ w < 0x110000 := hw ▸ b.valid
  have hfour := digits_lt hlt (by omega)
  unfold String.utf8EncodeChar
  rw [← hv, ← hw]
  dsimp only
  -- the cases are those of the numbers of bytes
  split_ifs
  all_goals simp (disch := omega) only [List.cons_append, ofNat_cons_lt_iff]
  all_goals omega

theorem encode_cons (c : Char) (text : Text) :
    encode (c :: text) = String.utf8EncodeChar c ++ encode text := rfl

theorem nil_lt_encode_cons (c : Char) (text : Text) : [] < encode (c :: text) := by
  rw [encode_cons]
  unfold String.utf8EncodeChar
  dsimp only
  split_ifs <;> exact List.nil_lt_cons _ _

theorem encode_lt_of_le (hle : Text.le s t = true) (hne : s ≠ t) : encode s < encode t := by
  induction s generalizing t with
  | nil =>
    obtain ⟨b, t, rfl⟩ := List.exists_cons_of_ne_nil hne.symm
    exact nil_lt_encode_cons b t
  | cons a s ih =>
    cases t with
    | nil => cases hle
    | cons b t =>
      rw [encode_cons, encode_cons]
      by_cases hab : a = b
      · subst hab
        simp only [Text.le, if_true] at hle
        exact List.append_left_lt (ih hle fun heq ↦ hne (congrArg (a :: ·) heq))
      · simp only [Text.le, if_neg hab, decide_eq_true_eq] at hle
        exact utf8EncodeChar_append_lt hle _ _

/-- Texts are ordered as their bytes are. -/
theorem encode_lt_iff : encode s < encode t ↔ Text.le s t = true ∧ s ≠ t := by
  constructor
  · intro hlt
    have hne : s ≠ t := by
      rintro rfl
      exact List.lt_irrefl _ hlt
    rcases Bool.or_eq_true_iff.mp (Text.le_total s t) with hle | hge
    · exact ⟨hle, hne⟩
    · exact absurd (encode_lt_of_le hge hne.symm) (List.lt_asymm hlt)
  · rintro ⟨hle, hne⟩
    exact encode_lt_of_le hle hne

end DefCatalog.Utf8
