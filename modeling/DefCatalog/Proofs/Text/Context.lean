import DefCatalog.Text.LowerCase
import Mathlib.Data.List.Basic

/-!
# Lower case in context

The lower-case form of a block of a text depends on what stands around it only in its sigmas. The
block has the form that it has on its own exactly if each of its sigmas has. In ASCII texts there
are none, and each character has its own form.
-/

namespace DefCatalog.Text

variable {before after block : Text}

/-- The lower-case form of a block between two texts, the one before it in reverse. -/
def lowerBetween (before after : Text) : Text → Text
  | [] => []
  | c :: rest =>
    if c = 'Σ' then lowerSigma before (rest ++ after) :: lowerBetween (c :: before) after rest
    else lowerChar c ++ lowerBetween (c :: before) after rest

/-- Whether each capital sigma of a block has the same lower-case form between two texts as in the
block alone. -/
def KeepsSigmas (before block after : Text) : Prop :=
  ∀ front rest, block = front ++ 'Σ' :: rest →
    lowerSigma (before ++ front).reverse (rest ++ after) = lowerSigma front.reverse rest

theorem lowerFrom_append (before block after : Text) :
    lowerFrom before (block ++ after) =
      lowerBetween before after block ++ lowerFrom (block.reverse ++ before) after := by
  induction block generalizing before with
  | nil => rfl
  | cons c rest ih =>
    rw [List.cons_append, lowerFrom, lowerBetween, ih, List.reverse_cons, List.append_assoc,
      List.singleton_append]
    split
    · rfl
    · rw [List.append_assoc]

/-- The sigmas of a text are its first character, if that is one, and those of the rest. -/
theorem forall_sigma_cons {P : Text → Text → Prop} {c : Char} :
    (∀ front rest, c :: block = front ++ 'Σ' :: rest → P front rest) ↔
      (c = 'Σ' → P [] block) ∧
        ∀ front rest, block = front ++ 'Σ' :: rest → P (c :: front) rest := by
  constructor
  · intro h
    exact ⟨fun hc ↦ h [] block (congrArg (· :: block) hc),
      fun front rest hblock ↦ h (c :: front) rest (congrArg (c :: ·) hblock)⟩
  · rintro ⟨hhead, htail⟩ front rest hblock
    cases front with
    | nil =>
      obtain ⟨rfl, rfl⟩ := List.cons.inj hblock
      exact hhead rfl
    | cons first front =>
      obtain ⟨rfl, hrest⟩ := List.cons.inj hblock
      exact htail front rest hrest

/-- A block has the same form with more text around it exactly if each of its sigmas has. -/
theorem lowerBetween_append_eq_iff (near outside after block : Text) :
    lowerBetween (near ++ outside) after block = lowerFrom near block ↔
      ∀ front rest, block = front ++ 'Σ' :: rest →
        lowerSigma (front.reverse ++ (near ++ outside)) (rest ++ after) =
          lowerSigma (front.reverse ++ near) rest := by
  induction block generalizing near with
  | nil => simp [lowerBetween, lowerFrom]
  | cons c block ih =>
    have hrest := ih (c :: near)
    rw [List.cons_append] at hrest
    rw [forall_sigma_cons, lowerBetween, lowerFrom]
    by_cases hc : c = 'Σ'
    · rw [if_pos hc, if_pos hc, List.cons.injEq, hrest]
      simp [hc]
    · rw [if_neg hc, if_neg hc, List.append_cancel_left_eq, hrest]
      simp [hc]

theorem keepsSigmas_iff :
    KeepsSigmas before block after ↔ lowerBetween before.reverse after block = lower block := by
  have hiff := lowerBetween_append_eq_iff [] before.reverse after block
  simp only [List.nil_append, List.append_nil] at hiff
  unfold KeepsSigmas lower
  simp only [hiff, List.reverse_append]

instance (before block after : Text) : Decidable (KeepsSigmas before block after) :=
  decidable_of_iff _ keepsSigmas_iff.symm

theorem keepsSigmas_of_not_mem (h : 'Σ' ∉ block) : KeepsSigmas before block after := by
  rintro front rest rfl
  exact absurd (List.mem_append_right front List.mem_cons_self) h

theorem KeepsSigmas.infix_lower (h : KeepsSigmas before block after) :
    lower block <:+: lower (before ++ block ++ after) := by
  refine ⟨lowerBetween [] (block ++ after) before,
    lowerFrom (block.reverse ++ before.reverse) after, ?_⟩
  calc
    lowerBetween [] (block ++ after) before ++ lower block ++
        lowerFrom (block.reverse ++ before.reverse) after =
        lowerBetween [] (block ++ after) before ++ (lowerBetween before.reverse after block ++
          lowerFrom (block.reverse ++ before.reverse) after) := by
      rw [keepsSigmas_iff.mp h, List.append_assoc]
    _ = lowerBetween [] (block ++ after) before ++ lowerFrom before.reverse (block ++ after) := by
      rw [lowerFrom_append _ block]
    _ = lower (before ++ block ++ after) := by
      rw [lower, List.append_assoc, lowerFrom_append [] before, List.append_nil]

theorem lowerFrom_of_ascii {text : Text} (before : Text) (h : ∀ c ∈ text, c.toNat < 0x80) :
    lowerFrom before text = text.map Char.toLower := by
  induction text generalizing before with
  | nil => rfl
  | cons c rest ih =>
    have hc := h c List.mem_cons_self
    have hsigma : c ≠ 'Σ' := by
      rintro rfl
      exact absurd hc (by decide)
    rw [lowerFrom, if_neg hsigma, lowerChar, if_pos hc,
      ih _ fun other hother ↦ h other (List.mem_cons_of_mem c hother)]
    rfl

theorem lower_of_ascii {text : Text} (h : ∀ c ∈ text, c.toNat < 0x80) :
    lower text = text.map Char.toLower :=
  lowerFrom_of_ascii [] h

end DefCatalog.Text
