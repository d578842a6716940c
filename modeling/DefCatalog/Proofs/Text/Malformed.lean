import DefCatalog.Proofs.Text.Utf8
import Mathlib.Tactic.SplitIfs

/-!
# Texts around other bytes

Inside a character only tail bytes can come next, and no character begins with one. So the first
byte of a character ends what is malformed before it and is read again as the beginning of the
character. Whatever bytes stand between two texts, both texts are read as they are, and the bytes
are read as they would be alone.
-/

namespace DefCatalog.Utf8

variable {state : State} {byte : UInt8} {bytes : Bytes}

/-- Whether a byte can stand inside a character but not at its beginning. -/
def IsTail (byte : UInt8) : Prop :=
  0x80 ≤ byte ∧ byte ≤ 0xBF

/-- Whether nothing but a tail byte would go on with the character at the reading position. -/
def State.WaitsForTail : State → Prop
  | .start => True
  | .inside _ low high _ => 0x80 ≤ low ∧ high ≤ 0xBF

theorem exists_lead (c : Char) :
    ∃ lead rest, String.utf8EncodeChar c = lead :: rest ∧ ¬IsTail lead := by
  obtain ⟨v, hv⟩ : ∃ v, v = c.val.toNat := ⟨_, rfl⟩
  have hvalid : v < 0xD800 ∨ 0xDFFF < v ∧ v < 0x110000 := hv ▸ c.valid
  unfold String.utf8EncodeChar IsTail
  rw [← hv]
  dsimp only
  -- the cases are those of the number of bytes
  split_ifs
  all_goals
    refine ⟨_, _, rfl, ?_⟩
    rw [UInt8.le_iff_toNat_le, UInt8.le_iff_toNat_le, UInt8.toNat_ofNat']
    simp only [UInt8.reduceToNat]
    omega

theorem waitsForTail_begin (byte : UInt8) : (begin byte).2.WaitsForTail := by
  unfold begin
  dsimp only
  split_ifs <;> simp [State.WaitsForTail]

theorem State.WaitsForTail.step (h : state.WaitsForTail) (byte : UInt8) :
    (step state byte).2.WaitsForTail := by
  cases state with
  | start => exact waitsForTail_begin byte
  | inside code low high missing =>
    unfold Utf8.step
    dsimp only
    split_ifs
    · trivial
    · exact ⟨UInt8.le_refl _, UInt8.le_refl _⟩
    · exact waitsForTail_begin byte

theorem piecesFrom_cons_of_not_isTail (h : state.WaitsForTail) (hbyte : ¬IsTail byte)
    (rest : Bytes) :
    piecesFrom state (byte :: rest) = piecesFrom state [] ++ piecesFrom .start (byte :: rest) := by
  cases state with
  | start => rfl
  | inside code low high missing =>
    have houtside : ¬(low ≤ byte ∧ byte ≤ high) := fun hbetween ↦
      hbyte ⟨UInt8.le_trans h.1 hbetween.1, UInt8.le_trans hbetween.2 h.2⟩
    have hstep : step (.inside code low high missing) byte =
        (none :: (begin byte).1, (begin byte).2) := if_neg houtside
    have hpieces : piecesFrom (.inside code low high missing) (byte :: rest) =
        (step (.inside code low high missing) byte).1 ++
          piecesFrom (step (.inside code low high missing) byte).2 rest := by rw [piecesFrom]
    rw [hpieces, hstep]
    rfl

theorem piecesFrom_append_cons (h : state.WaitsForTail) (hbyte : ¬IsTail byte)
    (before rest : Bytes) :
    piecesFrom state (before ++ byte :: rest) =
      piecesFrom state before ++ piecesFrom .start (byte :: rest) := by
  -- the state after some bytes waits for a tail byte as the one before them does
  induction before generalizing state with
  | nil => exact piecesFrom_cons_of_not_isTail h hbyte rest
  | cons first before ih =>
    rw [List.cons_append, piecesFrom, ih (h.step first), ← List.append_assoc, ← piecesFrom]

theorem piecesFrom_append_encode (h : state.WaitsForTail) (before : Bytes) (text : Text) :
    piecesFrom state (before ++ encode text) = piecesFrom state before ++ text.map some := by
  cases text with
  | nil => exact (congrArg _ (List.append_nil _)).trans (List.append_nil _).symm
  | cons c text =>
    obtain ⟨lead, tail, hlead, hbyte⟩ := exists_lead c
    have hbytes : encode (c :: text) = lead :: (tail ++ encode text) :=
      congrArg (· ++ encode text) hlead
    rw [hbytes, piecesFrom_append_cons h hbyte, ← hbytes, piecesFrom_encode]

theorem decodeLossy_eq (bytes : Bytes) :
    decodeLossy bytes = (piecesFrom .start bytes).map fun piece ↦ piece.getD '\uFFFD' :=
  congrArg _ (pieces_eq_piecesFrom bytes)

theorem map_getD_some (text : Text) :
    (text.map some).map (fun piece : Option Char ↦ piece.getD '\uFFFD') = text := by
  rw [List.map_map]
  exact List.map_id text

theorem decodeLossy_encode (text : Text) : decodeLossy (encode text) = text := by
  rw [decodeLossy_eq, piecesFrom_encode, map_getD_some]

/-- Other bytes between two texts are read as they are alone. -/
theorem decodeLossy_between (s t : Text) (junk : Bytes) :
    decodeLossy (encode s ++ junk ++ encode t) = s ++ decodeLossy junk ++ t := by
  have hstart : State.start.WaitsForTail := trivial
  calc
    decodeLossy (encode s ++ junk ++ encode t) =
        (s.map some ++ (piecesFrom .start junk ++ t.map some)).map (·.getD '\uFFFD') := by
      rw [decodeLossy_eq, List.append_assoc, piecesFrom_encode_append,
        piecesFrom_append_encode hstart]
    _ = s ++ (decodeLossy junk ++ t) := by
      rw [List.map_append, List.map_append, map_getD_some, map_getD_some, decodeLossy_eq]
    _ = s ++ decodeLossy junk ++ t := (List.append_assoc _ _ _).symm

theorem begin_ne (byte : UInt8) : begin byte ≠ ([], .start) := by
  unfold begin
  dsimp only
  split_ifs <;> simp

theorem step_ne (state : State) (byte : UInt8) : step state byte ≠ ([], .start) := by
  cases state with
  | start => exact begin_ne byte
  | inside code low high missing =>
    unfold step
    dsimp only
    split_ifs <;> simp

theorem piecesFrom_eq_nil_iff : piecesFrom state bytes = [] ↔ state = .start ∧ bytes = [] := by
  induction bytes generalizing state with
  | nil => cases state <;> simp [piecesFrom]
  | cons byte rest ih =>
    rw [piecesFrom, List.append_eq_nil_iff, ih]
    refine iff_of_false ?_ (by simp)
    rintro ⟨hpieces, hstate, -⟩
    exact step_ne state byte (Prod.ext hpieces hstate)

theorem decodeLossy_eq_nil_iff : decodeLossy bytes = [] ↔ bytes = [] := by
  rw [decodeLossy_eq, List.map_eq_nil_iff, piecesFrom_eq_nil_iff, and_iff_right rfl]

end DefCatalog.Utf8
