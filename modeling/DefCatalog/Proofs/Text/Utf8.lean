import DefCatalog.Text.Utf8

/-!
# Decoding what was encoded

The bytes of a character lead the decoder back to its start, with the character as the only piece.
So a text is read back from its bytes.
-/

namespace DefCatalog.Utf8

theorem begin_one {v : Nat} (h : v < 0x80) :
    begin (UInt8.ofNat v) = ([some (Char.ofNat v)], .start) := by
  have hbyte : (UInt8.ofNat v).toNat = v := UInt8.toNat_ofNat_of_lt' (Nat.lt_trans h (by decide))
  unfold begin
  rw [hbyte, if_pos h]

theorem begin_two : ∀ k < 0x20, 2 ≤ k →
    begin (UInt8.ofNat (k + 0xC0)) = ([], .inside k 0x80 0xBF 1) := by
  decide

theorem begin_three : ∀ k < 0x10, begin (UInt8.ofNat (k + 0xE0)) =
    ([], .inside k (if k = 0 then 0xA0 else 0x80) (if k = 0xD then 0x9F else 0xBF) 2) := by
  decide

theorem begin_four : ∀ k < 5, begin (UInt8.ofNat (k + 0xF0)) =
    ([], .inside k (if k = 0 then 0x90 else 0x80) (if k = 4 then 0x8F else 0xBF) 3) := by
  decide

variable {code digit missing : Nat} {low high : UInt8} {rest : Bytes}

theorem step_inside (hdigit : digit < 64) (hlow : low.toNat ≤ digit + 0x80)
    (hhigh : digit + 0x80 ≤ high.toNat) :
    step (.inside code low high missing) (UInt8.ofNat (digit + 0x80)) =
      if missing ≤ 1 then ([some (Char.ofNat (code * 64 + digit))], .start)
      else ([], .inside (code * 64 + digit) 0x80 0xBF (missing - 1)) := by
  have hbyte : (UInt8.ofNat (digit + 0x80)).toNat = digit + 0x80 :=
    UInt8.toNat_ofNat_of_lt' (Nat.lt_of_lt_of_le (Nat.add_lt_add_right hdigit _) (by decide))
  have hbits : (digit + 0x80) % 64 = digit := by omega
  have hbetween : low ≤ UInt8.ofNat (digit + 0x80) ∧ UInt8.ofNat (digit + 0x80) ≤ high := by
    rw [UInt8.le_iff_toNat_le, UInt8.le_iff_toNat_le, hbyte]
    exact ⟨hlow, hhigh⟩
  simp only [step, if_pos hbetween, hbyte, hbits]

/-- The last byte of a character. -/
theorem piecesFrom_last (hdigit : digit < 64) (hlow : low.toNat ≤ digit + 0x80)
    (hhigh : digit + 0x80 ≤ high.toNat) :
    piecesFrom (.inside code low high 1) (UInt8.ofNat (digit + 0x80) :: rest) =
      some (Char.ofNat (code * 64 + digit)) :: piecesFrom .start rest := by
  rw [piecesFrom, step_inside hdigit hlow hhigh]
  rfl

/-- A byte inside a character that is not the last one. -/
theorem piecesFrom_more (hdigit : digit < 64) (hlow : low.toNat ≤ digit + 0x80)
    (hhigh : digit + 0x80 ≤ high.toNat) :
    piecesFrom (.inside code low high (missing + 2)) (UInt8.ofNat (digit + 0x80) :: rest) =
      piecesFrom (.inside (code * 64 + digit) 0x80 0xBF (missing + 1)) rest := by
  rw [piecesFrom, step_inside hdigit hlow hhigh]
  rfl

/-- The last two bytes of a character. -/
theorem piecesFrom_last_two {last : Nat} (hdigit : digit < 64) (hlow : low.toNat ≤ digit + 0x80)
    (hhigh : digit + 0x80 ≤ high.toNat) (hlast : last < 64) :
    piecesFrom (.inside code low high 2)
        (UInt8.ofNat (digit + 0x80) :: UInt8.ofNat (last + 0x80) :: rest) =
      some (Char.ofNat ((code * 64 + digit) * 64 + last)) :: piecesFrom .start rest := by
  rw [piecesFrom_more hdigit hlow hhigh]
  exact piecesFrom_last hlast (by simp) (by simp; omega)

theorem piecesFrom_begin {byte : UInt8} {state : State} (h : begin byte = ([], state)) :
    piecesFrom .start (byte :: rest) = piecesFrom state rest := by
  rw [piecesFrom]
  simp only [step, h, List.nil_append]

variable {v : Nat}

theorem piecesFrom_one (h : v < 0x80) :
    piecesFrom .start (UInt8.ofNat v :: rest) = some (Char.ofNat v) :: piecesFrom .start rest := by
  rw [piecesFrom, step, begin_one h]
  rfl

theorem piecesFrom_two (hmin : 0x80 ≤ v) (hmax : v < 0x800) :
    piecesFrom .start (UInt8.ofNat (v / 64 % 32 + 0xC0) :: UInt8.ofNat (v % 64 + 0x80) :: rest) =
      some (Char.ofNat v) :: piecesFrom .start rest := by
  have hcode : v / 64 % 32 * 64 + v % 64 = v := by omega
  calc
    piecesFrom .start _ =
        piecesFrom (.inside (v / 64 % 32) 0x80 0xBF 1) (UInt8.ofNat (v % 64 + 0x80) :: rest) :=
      piecesFrom_begin (begin_two _ (by omega) (by omega))
    _ = some (Char.ofNat (v / 64 % 32 * 64 + v % 64)) :: piecesFrom .start rest :=
      piecesFrom_last (by omega) (by simp) (by simp; omega)
    _ = some (Char.ofNat v) :: piecesFrom .start rest := by rw [hcode]

/-- Three bytes, whose second one has bounds that leave out surrogates and longer forms. -/
theorem piecesFrom_three (hmin : 0x800 ≤ v) (hmax : v < 0x10000)
    (hvalid : v < 0xD800 ∨ 0xDFFF < v) :
    piecesFrom .start (UInt8.ofNat (v / 4096 % 16 + 0xE0) :: UInt8.ofNat (v / 64 % 64 + 0x80) ::
        UInt8.ofNat (v % 64 + 0x80) :: rest) =
      some (Char.ofNat v) :: piecesFrom .start rest := by
  have hcode : (v / 4096 % 16 * 64 + v / 64 % 64) * 64 + v % 64 = v := by omega
  have hlow : (if v / 4096 % 16 = 0 then (0xA0 : UInt8) else 0x80).toNat ≤
      v / 64 % 64 + 0x80 := by
    split
    · simp only [UInt8.reduceToNat]
      omega
    · exact Nat.le_add_left _ _
  have hhigh : v / 64 % 64 + 0x80 ≤
      (if v / 4096 % 16 = 0xD then (0x9F : UInt8) else 0xBF).toNat := by
    split <;> simp only [UInt8.reduceToNat] <;> omega
  calc
    piecesFrom .start _ =
        piecesFrom (.inside (v / 4096 % 16) (if v / 4096 % 16 = 0 then 0xA0 else 0x80)
            (if v / 4096 % 16 = 0xD then 0x9F else 0xBF) 2)
          (UInt8.ofNat (v / 64 % 64 + 0x80) :: UInt8.ofNat (v % 64 + 0x80) :: rest) :=
      piecesFrom_begin (begin_three _ (by omega))
    _ = some (Char.ofNat ((v / 4096 % 16 * 64 + v / 64 % 64) * 64 + v % 64)) ::
          piecesFrom .start rest :=
      piecesFrom_last_two (by omega) hlow hhigh (by omega)
    _ = some (Char.ofNat v) :: piecesFrom .start rest := by rw [hcode]

/-- Four bytes, whose second one has bounds that leave out longer forms and what is no character. -/
theorem piecesFrom_four (hmin : 0x10000 ≤ v) (hmax : v < 0x110000) :
    piecesFrom .start (UInt8.ofNat (v / 262144 % 8 + 0xF0) :: UInt8.ofNat (v / 4096 % 64 + 0x80) ::
        UInt8.ofNat (v / 64 % 64 + 0x80) :: UInt8.ofNat (v % 64 + 0x80) :: rest) =
      some (Char.ofNat v) :: piecesFrom .start rest := by
  have hcode : ((v / 262144 % 8 * 64 + v / 4096 % 64) * 64 + v / 64 % 64) * 64 + v % 64 = v := by
    omega
  have hlow : (if v / 262144 % 8 = 0 then (0x90 : UInt8) else 0x80).toNat ≤
      v / 4096 % 64 + 0x80 := by
    split
    · simp only [UInt8.reduceToNat]
      omega
    · exact Nat.le_add_left _ _
  have hhigh : v / 4096 % 64 + 0x80 ≤
      (if v / 262144 % 8 = 4 then (0x8F : UInt8) else 0xBF).toNat := by
    split <;> simp only [UInt8.reduceToNat] <;> omega
  calc
    piecesFrom .start _ =
        piecesFrom (.inside (v / 262144 % 8) (if v / 262144 % 8 = 0 then 0x90 else 0x80)
            (if v / 262144 % 8 = 4 then 0x8F else 0xBF) 3)
          (UInt8.ofNat (v / 4096 % 64 + 0x80) :: UInt8.ofNat (v / 64 % 64 + 0x80) ::
            UInt8.ofNat (v % 64 + 0x80) :: rest) :=
      piecesFrom_begin (begin_four _ (by omega))
    _ = piecesFrom (.inside (v / 262144 % 8 * 64 + v / 4096 % 64) 0x80 0xBF 2)
          (UInt8.ofNat (v / 64 % 64 + 0x80) :: UInt8.ofNat (v % 64 + 0x80) :: rest) :=
      piecesFrom_more (by omega) hlow hhigh
    _ = some (Char.ofNat (((v / 262144 % 8 * 64 + v / 4096 % 64) * 64 + v / 64 % 64) * 64 +
          v % 64)) :: piecesFrom .start rest :=
      piecesFrom_last_two (by omega) (by simp) (by simp; omega) (by omega)
    _ = some (Char.ofNat v) :: piecesFrom .start rest := by rw [hcode]

theorem piecesFrom_utf8EncodeChar (c : Char) (rest : Bytes) :
    piecesFrom .start (String.utf8EncodeChar c ++ rest) = some c :: piecesFrom .start rest := by
  obtain ⟨v, hv⟩ : ∃ v, v = c.val.toNat := ⟨_, rfl⟩
  have hvalid : v < 0xD800 ∨ 0xDFFF < v ∧ v < 0x110000 := hv ▸ c.valid
  have hchar : Char.ofNat v = c := hv ▸ Char.ofNat_toNat c
  unfold String.utf8EncodeChar
  rw [← hv, ← hchar]
  dsimp only
  -- the cases are those of the number of bytes
  split
  · apply piecesFrom_one
    omega
  split
  · apply piecesFrom_two <;> omega
  split
  · apply piecesFrom_three <;> omega
  · apply piecesFrom_four <;> omega

theorem piecesFrom_encode_append (text : Text) (rest : Bytes) :
    piecesFrom .start (encode text ++ rest) = text.map some ++ piecesFrom .start rest := by
  induction text with
  | nil => rfl
  | cons c text ih =>
    calc
      piecesFrom .start (encode (c :: text) ++ rest) =
          piecesFrom .start (String.utf8EncodeChar c ++ (encode text ++ rest)) := by
        rw [← List.append_assoc]
        rfl
      _ = some c :: piecesFrom .start (encode text ++ rest) := piecesFrom_utf8EncodeChar c _
      _ = (c :: text).map some ++ piecesFrom .start rest := by
        rw [ih, List.map_cons, List.cons_append]

theorem piecesFrom_encode (text : Text) : piecesFrom .start (encode text) = text.map some := by
  have h := piecesFrom_encode_append text []
  rwa [List.append_nil, piecesFrom, List.append_nil] at h

/-- A text is read back from its bytes. -/
theorem decode?_encode (text : Text) : decode? (encode text) = some text := by
  unfold decode?
  rw [pieces_eq_piecesFrom, piecesFrom_encode]
  induction text with
  | nil => rfl
  | cons c rest ih => rw [List.map_cons, List.mapM_cons, ih]; rfl

end DefCatalog.Utf8
