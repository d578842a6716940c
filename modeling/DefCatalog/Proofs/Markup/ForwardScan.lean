import DefCatalog.Proofs.Markup.BackwardScan
import Mathlib.Data.List.Find

/-!
# The first rule as a forward scan

The first rule can be read from left to right: a set of open kinds is carried along, an opening tag
puts its kind in, a closing tag takes it out, and each `<defName>` element is filed under the first
kind of the set. Nothing happens between one `<` and the next, so a document can be gone through tag
by tag.
-/

namespace DefCatalog

namespace DefKind

/-- Whether the kind is open after the tag at the head of the text, if it was open before it or
not. -/
def isOpenPast (matching : Matching) (isOpen : DefKind → Bool) (text : Text) (kind : DefKind) :
    Bool :=
  if (kind.closing matching).OccursAt text 0 then false
  else if (kind.opening matching).OccursAt text 0 then true
  else isOpen kind

/-- A kind is open after a text if some opening tag starts after all closing tags. -/
theorem isOpenAfter_iff {kind : DefKind} {matching : Matching} {before : Text} :
    kind.IsOpenAfter matching before ↔
      ∃ opened, (kind.opening matching).OccursAt before opened ∧
        ∀ closed, (kind.closing matching).OccursAt before closed → closed < opened := by
  constructor
  · rintro ⟨opened, hopened, hclosed⟩
    rw [TagPattern.lastStart?_eq_some_iff] at hopened
    refine ⟨opened, hopened.1, fun closed hoccurs ↦ ?_⟩
    obtain ⟨last, hlast⟩ := TagPattern.exists_lastStart? hoccurs
    exact Nat.lt_of_le_of_lt ((TagPattern.lastStart?_eq_some_iff.mp hlast).2 hoccurs)
      (hclosed last hlast)
  · rintro ⟨opened, hoccurs, hclosed⟩
    obtain ⟨last, hlast⟩ := TagPattern.exists_lastStart? hoccurs
    refine ⟨last, hlast, fun closed hclosing ↦ ?_⟩
    exact Nat.lt_of_lt_of_le (hclosed closed (TagPattern.lastStart?_eq_some_iff.mp hclosing).1)
      ((TagPattern.lastStart?_eq_some_iff.mp hlast).2 hoccurs)

/-- Whether the last opening tag that starts before a position starts after all closing tags that
start there, the text behind the position being known. -/
def OpensBefore (kind : DefKind) (matching : Matching) (text : Text) (position : Nat) : Prop :=
  ∃ opened, opened < position ∧ (kind.opening matching).OccursAt text opened ∧
    ∀ closed, closed < position → (kind.closing matching).OccursAt text closed → closed < opened

variable {kind : DefKind} {matching : Matching} {text : Text} {position : Nat}

theorem isOpenAfter_take_iff (h : text[position]? = some '<') :
    kind.IsOpenAfter matching (text.take position) ↔ kind.OpensBefore matching text position := by
  simp only [isOpenAfter_iff, OpensBefore, TagPattern.occursAt_take_iff_of_mark h, and_assoc,
    and_imp]

theorem not_opensBefore_zero : ¬kind.OpensBefore matching text 0 := by
  rintro ⟨opened, hlt, _⟩
  exact Nat.not_lt_zero opened hlt

theorem not_opensBefore_succ (hclosing : (kind.closing matching).OccursAt text position) :
    ¬kind.OpensBefore matching text (position + 1) := by
  rintro ⟨opened, hlt, _, hclosed⟩
  have hafter := hclosed position (Nat.lt_succ_self position) hclosing
  omega

theorem opensBefore_succ (hopening : (kind.opening matching).OccursAt text position)
    (hclosing : ¬(kind.closing matching).OccursAt text position) :
    kind.OpensBefore matching text (position + 1) := by
  refine ⟨position, Nat.lt_succ_self position, hopening, fun closed hlt hoccurs ↦ ?_⟩
  have hne : closed ≠ position := by
    rintro rfl
    exact hclosing hoccurs
  omega

theorem opensBefore_succ_iff_of_not (hopening : ¬(kind.opening matching).OccursAt text position)
    (hclosing : ¬(kind.closing matching).OccursAt text position) :
    kind.OpensBefore matching text (position + 1) ↔ kind.OpensBefore matching text position := by
  constructor
  · rintro ⟨opened, hlt, hoccurs, hclosed⟩
    have hne : opened ≠ position := by
      rintro rfl
      exact hopening hoccurs
    exact ⟨opened, by omega, hoccurs, fun closed hle ↦ hclosed closed (by omega)⟩
  · rintro ⟨opened, hlt, hoccurs, hclosed⟩
    refine ⟨opened, by omega, hoccurs, fun closed hle hoccurs' ↦ ?_⟩
    have hne : closed ≠ position := by
      rintro rfl
      exact hclosing hoccurs'
    exact hclosed closed (by omega) hoccurs'

/-- What the tag at a position changes. -/
theorem opensBefore_succ_iff {isOpen : DefKind → Bool}
    (h : isOpen kind = true ↔ kind.OpensBefore matching text position) :
    isOpenPast matching isOpen (text.drop position) kind = true ↔
      kind.OpensBefore matching text (position + 1) := by
  unfold isOpenPast
  simp only [TagPattern.occursAt_drop_iff, Nat.add_zero]
  split
  · rename_i hclosing
    exact iff_of_false Bool.false_ne_true (not_opensBefore_succ hclosing)
  · rename_i hclosing
    split
    · rename_i hopening
      exact iff_of_true rfl (opensBefore_succ hopening hclosing)
    · rename_i hopening
      rw [h, opensBefore_succ_iff_of_not hopening hclosing]

end DefKind

namespace Markup

/-- The definition by the element at the head of the text, filed under the first open kind. -/
def headDefinition? (isOpen : DefKind → Bool) (text : Text) : Option Definition :=
  (taggedName? text).bind fun found ↦ fileUnder? isOpen found.1

/-- The definitions by the first rule in the rest of a document, given which kinds are open. -/
def scanForward (matching : Matching) (isOpen : DefKind → Bool) : Text → List Definition
  | [] => []
  | c :: rest =>
    (headDefinition? isOpen (c :: rest)).toList ++
      scanForward matching (DefKind.isOpenPast matching isOpen (c :: rest)) rest

/-- The element at a position is filed under the first kind that is open there. -/
theorem headDefinition?_drop {matching : Matching} {text : Text} {position : Nat}
    {isOpen : DefKind → Bool}
    (h : ∀ kind, isOpen kind = true ↔ kind.OpensBefore matching text position) :
    headDefinition? isOpen (text.drop position) = definitionAt? matching text position := by
  rw [headDefinition?, definitionAt?, valueAt?_eq_map_taggedName?]
  cases hname : taggedName? (text.drop position) with
  | none => rfl
  | some found =>
    have hmark : text[position]? = some '<' := by
      have hfound : taggedName? (text.drop position) = some (found.1, found.2) := hname
      have hzero := (head_of_taggedName? hfound).1
      rw [List.getElem?_drop] at hzero
      exact hzero
    have hopen : isOpen = fun kind ↦ decide (kind.IsOpenAfter matching (text.take position)) := by
      funext kind
      rw [Bool.eq_iff_iff, decide_eq_true_iff, h, DefKind.isOpenAfter_take_iff hmark]
    rw [Option.bind_some, Option.map_some, Option.bind_some, hopen]

/-- Carrying the open kinds along gives what looking back from each position gives. -/
theorem scanForward_drop {matching : Matching} {text : Text} {position : Nat}
    {isOpen : DefKind → Bool}
    (h : ∀ kind, isOpen kind = true ↔ kind.OpensBefore matching text position) :
    scanForward matching isOpen (text.drop position) =
      (List.range (text.length - position)).filterMap fun offset ↦
        definitionAt? matching text (position + offset) := by
  induction hrest : text.drop position generalizing position isOpen with
  | nil =>
    rw [Nat.sub_eq_zero_of_le (List.drop_eq_nil_iff.mp hrest)]
    rfl
  | cons c rest ih =>
    have hlt : position < text.length := by
      rw [← List.drop_eq_nil_iff.not.trans Nat.not_le, hrest]
      exact List.cons_ne_nil c rest
    have hnext : text.drop (position + 1) = rest := by
      rw [← List.drop_drop, hrest, List.drop_succ_cons, List.drop_zero]
    have hpast : ∀ kind, DefKind.isOpenPast matching isOpen (c :: rest) kind = true ↔
        kind.OpensBefore matching text (position + 1) := by
      intro kind
      rw [← hrest]
      exact DefKind.opensBefore_succ_iff (h kind)
    have hshift : (fun offset ↦ definitionAt? matching text (position + offset)) ∘ Nat.succ =
        fun offset ↦ definitionAt? matching text (position + 1 + offset) := by
      funext offset
      rw [Function.comp_apply, Nat.add_assoc, Nat.add_comm 1 offset]
    have hlength : text.length - (position + 1) + 1 = text.length - position := by omega
    calc
      scanForward matching isOpen (c :: rest) =
          (definitionAt? matching text position).toList ++
            (List.range (text.length - (position + 1))).filterMap fun offset ↦
              definitionAt? matching text (position + 1 + offset) := by
        rw [scanForward, ih hpast hnext, ← hrest, headDefinition?_drop h]
      _ = (List.range (text.length - (position + 1) + 1)).filterMap fun offset ↦
          definitionAt? matching text (position + offset) := by
        rw [List.range_succ_eq_map, List.filterMap_cons, Nat.add_zero, List.filterMap_map, hshift]
        cases definitionAt? matching text position with
        | none => rfl
        | some found => rfl
      _ = (List.range (text.length - position)).filterMap fun offset ↦
          definitionAt? matching text (position + offset) := by
        rw [hlength]

theorem taggedDefinitions_eq_scanForward (matching : Matching) (text : Text) :
    taggedDefinitions matching text = scanForward matching (fun _ ↦ false) text := by
  have hstart : ∀ kind : DefKind, (fun _ ↦ false) kind = true ↔ kind.OpensBefore matching text 0 := by
    intro kind
    simp [DefKind.not_opensBefore_zero]
  have hscan := scanForward_drop hstart
  rw [List.drop_zero] at hscan
  simp only [Nat.zero_add, Nat.sub_zero] at hscan
  rw [hscan, taggedDefinitions_eq_filterMap_taggedNames]
  exact filterMap_taggedNames text fun position ↦
    fileUnder? fun kind ↦ kind.IsOpenAfter matching (text.take position)

variable {matching : Matching} {isOpen isOpen' : DefKind → Bool}

theorem scanForward_congr {text : Text} (h : ∀ kind ∈ DefKind.all, isOpen kind = isOpen' kind) :
    scanForward matching isOpen text = scanForward matching isOpen' text := by
  induction text generalizing isOpen isOpen' with
  | nil => rfl
  | cons c rest ih =>
    have hhead : headDefinition? isOpen (c :: rest) = headDefinition? isOpen' (c :: rest) := by
      have hfind : DefKind.all.find? isOpen = DefKind.all.find? isOpen' := List.find?_congr h
      unfold headDefinition? fileUnder?
      rw [hfind]
    have hpast : ∀ kind ∈ DefKind.all, DefKind.isOpenPast matching isOpen (c :: rest) kind =
        DefKind.isOpenPast matching isOpen' (c :: rest) kind := by
      intro kind hkind
      unfold DefKind.isOpenPast
      rw [h kind hkind]
    rw [scanForward, scanForward, hhead, ih hpast]

theorem scanForward_append {front rest : Text} (h : '<' ∉ front) :
    scanForward matching isOpen (front ++ rest) = scanForward matching isOpen rest := by
  induction front with
  | nil => rfl
  | cons c front ih =>
    rw [List.mem_cons, not_or] at h
    have hhead : headDefinition? isOpen (c :: (front ++ rest)) = none := by
      have hnone : taggedName? (c :: (front ++ rest)) = none := by
        rw [Option.eq_none_iff_forall_ne_some]
        rintro ⟨value, after⟩ hname
        exact h.1 (Option.some.inj (head_of_taggedName? hname).1).symm
      rw [headDefinition?, hnone, Option.bind_none]
    have hpast : DefKind.isOpenPast matching isOpen (c :: (front ++ rest)) = isOpen := by
      have hoccurs : ∀ pattern : TagPattern, ¬pattern.OccursAt (c :: (front ++ rest)) 0 := by
        intro pattern hoccurs
        exact h.1 (Option.some.inj (TagPattern.getElem?_of_occursAt hoccurs)).symm
      funext kind
      rw [DefKind.isOpenPast, if_neg (hoccurs _), if_neg (hoccurs _)]
    rw [List.cons_append, scanForward, hhead, hpast, ih h.2]
    rfl

end Markup

end DefCatalog
