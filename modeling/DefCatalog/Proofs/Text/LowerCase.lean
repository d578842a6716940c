import DefCatalog.Text.LowerCase
import Mathlib.Data.List.Basic

/-!
# Lower case is final

No mapping of the case table leads to a character that the table maps on, and neither form of a
sigma is a capital one. So a text in lower case is its own lower-case form.
-/

namespace DefCatalog.Text

variable {c : Char} {code : Nat}

/-- Whether a character stays as it is wherever it stands. -/
structure IsSettled (c : Char) : Prop where
  ne_sigma : c ≠ 'Σ'
  lowerChar_eq : lowerChar c = [c]

instance (c : Char) : Decidable (IsSettled c) :=
  decidable_of_iff (c ≠ 'Σ' ∧ lowerChar c = [c]) ⟨fun h ↦ ⟨h.1, h.2⟩, fun h ↦ ⟨h.1, h.2⟩⟩

/-- The place of a code point after the shift of a run. -/
def CaseRun.shifted (run : CaseRun) (code : Nat) : Nat :=
  (code + run.shift).toNat

/-- Whether no character that a run leads to is in another run: they lie before it or after it, or
both runs leave out every second character and these are others. -/
def CaseRun.avoids (run other : CaseRun) : Bool :=
  Nat.blt (run.shifted run.last) other.first || Nat.blt other.last (run.shifted run.first) ||
    (Nat.beq other.step 2 && (Nat.beq run.step 2 || Nat.beq run.first run.last) &&
      Nat.beq ((run.shifted run.first - other.first) % 2) 1)

/-- Whether a run leads to characters only, and not to `İ`. -/
def CaseRun.endsWell (run : CaseRun) : Bool :=
  Nat.ble run.first run.last && decide (0 ≤ run.first + run.shift) &&
    (Nat.blt (run.shifted run.last) 0x130 || Nat.blt 0x130 (run.shifted run.first)) &&
    (Nat.blt (run.shifted run.last) 0xD800 ||
      (Nat.blt 0xDFFF (run.shifted run.first) && Nat.blt (run.shifted run.last) 0x110000))

theorem avoids_of_mem : caseRuns.all (fun run ↦ caseRuns.all run.avoids) = true := by
  decide +kernel

theorem endsWell_of_mem : caseRuns.all CaseRun.endsWell = true := by
  decide +kernel

theorem CaseRun.lower?_eq_some {run : CaseRun} {lowered : Nat} (h : run.lower? code = some lowered) :
    run.first ≤ code ∧ code ≤ run.last ∧ (code - run.first) % run.step = 0 ∧
      lowered = run.shifted code := by
  unfold CaseRun.lower? at h
  split at h
  · rename_i hrun
    exact ⟨hrun.1, hrun.2.1, hrun.2.2, (Option.some.inj h).symm⟩
  · cases h

theorem CaseRun.lower?_shifted {run other : CaseRun} {lowered : Nat} (hends : run.endsWell = true)
    (havoids : run.avoids other = true) (h : run.lower? code = some lowered) :
    other.lower? lowered = none := by
  obtain ⟨hfirst, hlast, hstep, rfl⟩ := CaseRun.lower?_eq_some h
  simp only [CaseRun.endsWell, CaseRun.avoids, CaseRun.shifted, Bool.and_eq_true, Bool.or_eq_true,
    Nat.blt_eq, Nat.beq_eq, Nat.ble_eq, decide_eq_true_eq] at hends havoids
  unfold CaseRun.lower? CaseRun.shifted
  rw [if_neg]
  rintro ⟨hlow, hhigh, hother⟩
  rcases havoids with (hbefore | hafter) | ⟨⟨htwo, hparity⟩, hodd⟩
  · omega
  · omega
  · rw [htwo] at hother
    rcases hparity with hrun | hone
    · rw [hrun] at hstep
      omega
    · omega

theorem findSome?_lower?_of_lower? {run : CaseRun} {lowered : Nat} (hmem : run ∈ caseRuns)
    (h : run.lower? code = some lowered) : caseRuns.findSome? (·.lower? lowered) = none := by
  rw [List.findSome?_eq_none_iff]
  intro other hother
  have havoids := List.all_eq_true.mp (List.all_eq_true.mp avoids_of_mem run hmem) other hother
  exact CaseRun.lower?_shifted (List.all_eq_true.mp endsWell_of_mem run hmem) havoids h

theorem findSome?_lower?_sigma : caseRuns.findSome? (·.lower? 'Σ'.toNat) ≠ none := by
  decide

theorem toLower_eq_self (h : caseRuns.findSome? (·.lower? c.toNat) = none) : c.toLower = c := by
  have hcapitals : (⟨0x41, 0x5A, 1, 32⟩ : CaseRun) ∈ caseRuns := by decide
  have hnone := List.findSome?_eq_none_iff.mp h _ hcapitals
  unfold Char.toLower
  rw [dif_neg]
  intro hupper
  have hlow : 0x41 ≤ c.toNat := hupper.1
  have hhigh : c.toNat ≤ 0x5A := hupper.2
  simp [CaseRun.lower?, hlow, hhigh, Nat.mod_one] at hnone

theorem isSettled_of_findSome? (hdot : c ≠ 'İ')
    (h : caseRuns.findSome? (·.lower? c.toNat) = none) : IsSettled c := by
  constructor
  · rintro rfl
    exact findSome?_lower?_sigma h
  · unfold lowerChar
    split
    · rw [toLower_eq_self h]
    · rw [h]

theorem isSettled_toLower (h : c.toNat < 0x80) : IsSettled c.toLower := by
  have hall : ∀ n < 0x80, IsSettled (Char.ofNat n).toLower := by decide
  rw [← Char.ofNat_toNat c]
  exact hall c.toNat h

theorem isSettled_of_lower? {code lowerCode : Nat}
    (hfound : caseRuns.findSome? (·.lower? code) = some lowerCode) :
    IsSettled (Char.ofNat lowerCode) := by
  obtain ⟨run, hmem, hlower⟩ := List.exists_of_findSome?_eq_some hfound
  have hnone := findSome?_lower?_of_lower? hmem hlower
  have hends := List.all_eq_true.mp endsWell_of_mem run hmem
  obtain ⟨hfirst, hlast, _, hcode⟩ := CaseRun.lower?_eq_some hlower
  simp only [CaseRun.endsWell, CaseRun.shifted, Bool.and_eq_true, Bool.or_eq_true, Nat.blt_eq,
    Nat.ble_eq, decide_eq_true_eq] at hends
  unfold CaseRun.shifted at hcode
  have hvalid : lowerCode.isValidChar := by
    unfold Nat.isValidChar
    omega
  have hlowered : (Char.ofNat lowerCode).toNat = lowerCode := by
    rw [Char.ofNat, dif_pos hvalid]
    rfl
  apply isSettled_of_findSome?
  · intro hdot
    rw [hdot] at hlowered
    have : lowerCode = 0x130 := hlowered.symm
    omega
  · rw [hlowered]
    exact hnone

theorem isSettled_of_mem_lowerChar {lowered : Char} (hsigma : c ≠ 'Σ')
    (h : lowered ∈ lowerChar c) : IsSettled lowered := by
  unfold lowerChar at h
  split at h
  · rename_i hascii
    rw [List.mem_singleton.mp h]
    exact isSettled_toLower hascii
  · rename_i hascii
    split at h
    · have hletter : IsSettled 'i' := by decide +kernel
      have hdot : IsSettled '\u0307' := by decide +kernel
      rcases List.mem_cons.mp h with rfl | h
      · exact hletter
      · rw [List.mem_singleton.mp h]
        exact hdot
    · rename_i hdot
      split at h
      · rename_i lowerCode hfound
        rw [List.mem_singleton.mp h]
        exact isSettled_of_lower? hfound
      · rename_i hnone
        rw [List.mem_singleton.mp h]
        refine ⟨hsigma, ?_⟩
        unfold lowerChar
        rw [if_neg hascii, if_neg hdot, hnone]

theorem isSettled_of_mem_lowerFrom {before text : Text} (h : c ∈ lowerFrom before text) :
    IsSettled c := by
  induction text generalizing before with
  | nil => cases h
  | cons first rest ih =>
    unfold lowerFrom at h
    split at h
    · rcases List.mem_cons.mp h with rfl | hrest
      · have hforms : IsSettled 'ς' ∧ IsSettled 'σ' := by decide +kernel
        unfold lowerSigma
        split
        · exact hforms.1
        · exact hforms.2
      · exact ih hrest
    · rename_i hsigma
      rcases List.mem_append.mp h with hfirst | hrest
      · exact isSettled_of_mem_lowerChar hsigma hfirst
      · exact ih hrest

theorem lowerFrom_of_isSettled {before text : Text} (h : ∀ c ∈ text, IsSettled c) :
    lowerFrom before text = text := by
  induction text generalizing before with
  | nil => rfl
  | cons first rest ih =>
    have hfirst := h first List.mem_cons_self
    rw [lowerFrom, if_neg hfirst.ne_sigma, hfirst.lowerChar_eq,
      ih fun c hc ↦ h c (List.mem_cons_of_mem first hc)]
    rfl

/-- A text in lower case is its own lower-case form. -/
@[simp]
theorem lower_lower (text : Text) : lower (lower text) = lower text :=
  lowerFrom_of_isSettled fun _ h ↦ isSettled_of_mem_lowerFrom h

end DefCatalog.Text
