import DefCatalog.Markup.Extract
import DefCatalog.Proofs.Markup.Occurrences

/-!
# The first rule as a backward scan

The plain form of the first rule goes back, from each `<defName>` element of the document, through
the text before it: a kind is open there if its last opening tag starts after its last closing tag.
Main statement: collecting all tags once and searching them by halving finds the same definitions in
the same order.
-/

namespace DefCatalog

/-- The last occurrence below a bound, looked for from there back to the beginning. -/
def TagPattern.lastStartBelow? (pattern : TagPattern) (before : Text) : Nat → Option Nat
  | 0 => none
  | start + 1 =>
    if pattern.OccursAt before start then some start else pattern.lastStartBelow? before start

/-- The last occurrence in a text. -/
def TagPattern.lastStart? (pattern : TagPattern) (before : Text) : Option Nat :=
  pattern.lastStartBelow? before before.length

namespace DefKind

/-- Whether a kind is open after a text: it has an opening tag there, and its last one starts after
its last closing tag, if there is one. -/
def IsOpenAfter (kind : DefKind) (matching : Matching) (before : Text) : Prop :=
  ∃ opened, (kind.opening matching).lastStart? before = some opened ∧
    ∀ closed, (kind.closing matching).lastStart? before = some closed → closed < opened

instance (kind : DefKind) (matching : Matching) (before : Text) :
    Decidable (kind.IsOpenAfter matching before) :=
  match hopening : (kind.opening matching).lastStart? before,
      hclosing : (kind.closing matching).lastStart? before with
  | none, _ => isFalse (by simp [IsOpenAfter, hopening])
  | some _, none => isTrue (by simp [IsOpenAfter, hopening, hclosing])
  | some opened, some closed =>
    if h : closed < opened then isTrue (by simp [IsOpenAfter, hopening, hclosing, h])
    else isFalse (by simp [IsOpenAfter, hopening, hclosing, h])

end DefKind

namespace Markup

/-- The value of the `<defName>` element at a position of the document: what stands before the next
`<` after its opening tag, if that is something and the closing tag follows. -/
def valueAt? (text : Text) (position : Nat) : Option Text :=
  let value := (text.drop (position + nameOpening.length)).takeWhile (· != '<')
  if value ≠ [] ∧ nameOpening ++ value ++ nameClosing <+: text.drop position then some value
  else none

/-- A name, filed under the first open kind of the table. -/
def fileUnder? (isOpen : DefKind → Bool) (value : Text) : Option Definition :=
  (DefKind.all.find? isOpen).map fun kind ↦ ⟨kind.key, value⟩

/-- The definition by the element at a position of the document, if there is such an element and a
kind is open before it. -/
def definitionAt? (matching : Matching) (text : Text) (position : Nat) : Option Definition :=
  (valueAt? text position).bind
    (fileUnder? fun kind ↦ kind.IsOpenAfter matching (text.take position))

/-- The definitions by the first rule, each found by going back from its position. -/
def scanBackward (matching : Matching) (text : Text) : List Definition :=
  (List.range text.length).filterMap (definitionAt? matching text)

end Markup

namespace TagPattern

variable {pattern : TagPattern}

theorem lastStartBelow?_eq_some_iff {before : Text} {bound start : Nat} :
    pattern.lastStartBelow? before bound = some start ↔
      IsGreatest {s | pattern.OccursAt before s ∧ s < bound} start := by
  induction bound with
  | zero => simp [lastStartBelow?, IsGreatest]
  | succ bound ih =>
    unfold lastStartBelow?
    split
    · rename_i hoccurs
      have hgreatest : IsGreatest {s | pattern.OccursAt before s ∧ s < bound + 1} bound :=
        ⟨⟨hoccurs, Nat.lt_succ_self bound⟩, fun s hs ↦ Nat.le_of_lt_succ hs.2⟩
      rw [Option.some.injEq]
      constructor
      · rintro rfl
        exact hgreatest
      · exact hgreatest.unique
    · rename_i hnot
      have hset : {s | pattern.OccursAt before s ∧ s < bound + 1} =
          {s | pattern.OccursAt before s ∧ s < bound} := by
        ext s
        apply and_congr_right
        intro hs
        have hne : s ≠ bound := by
          rintro rfl
          exact hnot hs
        omega
      rw [ih, hset]

theorem lastStart?_eq_some_iff {before : Text} {start : Nat} :
    pattern.lastStart? before = some start ↔
      IsGreatest {s | pattern.OccursAt before s} start := by
  have hset : {s | pattern.OccursAt before s ∧ s < before.length} =
      {s | pattern.OccursAt before s} := by
    ext s
    exact and_iff_left_of_imp fun hs ↦ (List.getElem?_eq_some_iff.mp (getElem?_of_occursAt hs)).1
  rw [lastStart?, lastStartBelow?_eq_some_iff, hset]

theorem exists_lastStart? {before : Text} {start : Nat} (h : pattern.OccursAt before start) :
    ∃ last, pattern.lastStart? before = some last := by
  have hbelow : ∀ bound, start < bound → ∃ last, pattern.lastStartBelow? before bound = some last := by
    intro bound hlt
    induction bound with
    | zero => exact absurd hlt (Nat.not_lt_zero start)
    | succ bound ih =>
      unfold lastStartBelow?
      split
      · exact ⟨bound, rfl⟩
      · rename_i hnot
        have hne : start ≠ bound := by
          rintro rfl
          exact hnot h
        exact ih (by omega)
  exact hbelow _ (List.getElem?_eq_some_iff.mp (getElem?_of_occursAt h)).1

theorem lastStartBefore?_spans (text : Text) (limit : Nat) :
    TagSpan.lastStartBefore? (pattern.spans text) limit =
      pattern.lastStart? (text.take limit) := by
  apply Option.ext
  intro start
  rw [lastStartBefore?_spans_eq_some_iff, lastStart?_eq_some_iff]

end TagPattern

theorem TagOccurrences.isOpenAt_collect (matching : Matching) (text : Text) (kind : DefKind)
    (position : Nat) :
    (TagOccurrences.collect matching text kind).isOpenAt position =
      decide (kind.IsOpenAfter matching (text.take position)) := by
  rw [Bool.eq_iff_iff, decide_eq_true_iff]
  unfold isOpenAt collect DefKind.IsOpenAfter
  simp only [TagPattern.lastStartBefore?_spans]
  cases (kind.opening matching).lastStart? (text.take position) with
  | none => simp
  | some opened =>
    cases (kind.closing matching).lastStart? (text.take position) with
    | none => simp
    | some closed => simp

namespace Markup

theorem valueAt?_eq_map_taggedName? (text : Text) (position : Nat) :
    valueAt? text position = (taggedName? (text.drop position)).map Prod.fst := by
  apply Option.ext
  intro value
  rw [Option.map_eq_some_iff]
  constructor
  · intro h
    unfold valueAt? at h
    simp only [Option.ite_none_right_eq_some, Option.some.injEq] at h
    obtain ⟨⟨hvalue, rest, hrest⟩, rfl⟩ := h
    refine ⟨(_, rest), taggedName?_eq_some_iff.mpr ⟨hvalue, ?_, ?_⟩, rfl⟩
    · intro hmem
      simpa using List.all_eq_true.mp List.all_takeWhile '<' hmem
    · rw [← hrest, List.append_assoc, List.append_assoc]
  · rintro ⟨⟨value, rest⟩, hfound, rfl⟩
    obtain ⟨hvalue, hplain, happend⟩ := taggedName?_eq_some_iff.mp hfound
    have hinner : (text.drop (position + nameOpening.length)).takeWhile (· != '<') = value := by
      rw [← List.drop_drop, ← happend, List.drop_left, List.takeWhile_append_of_pos]
      · simp [nameClosing]
      · intro c hc
        simpa using ne_of_mem_of_not_mem hc hplain
    have hprefix : nameOpening ++ value ++ nameClosing <+: text.drop position := by
      refine ⟨rest, ?_⟩
      rw [← happend, List.append_assoc, List.append_assoc]
    unfold valueAt?
    simp only [hinner]
    exact if_pos ⟨hvalue, hprefix⟩

theorem head_of_taggedName? {text value rest : Text} (h : taggedName? text = some (value, rest)) :
    text[0]? = some '<' ∧ text[1]? = some 'd' := by
  obtain ⟨_, _, rfl⟩ := taggedName?_eq_some_iff.mp h
  exact ⟨rfl, rfl⟩

/-- No other element begins inside an element: its second `<` is followed by a slash. -/
theorem taggedName?_drop_eq_none {value rest : Text} {position : Nat} (hplain : '<' ∉ value)
    (hpositive : 0 < position)
    (hlt : position < nameOpening.length + value.length + nameClosing.length) :
    taggedName? ((nameOpening ++ (value ++ (nameClosing ++ rest))).drop position) = none := by
  have htag : '<' ∉ nameTag := by decide
  rw [Option.eq_none_iff_forall_not_mem]
  rintro ⟨inner, after⟩ hinner
  obtain ⟨hmark, hletter⟩ := head_of_taggedName? hinner
  rw [List.getElem?_drop, ← List.append_assoc] at hmark hletter
  rcases Nat.lt_or_ge position (nameOpening ++ value).length with hleft | hright
  · rw [Nat.add_zero, List.getElem?_append_left hleft, nameOpening, List.cons_append,
      show position = (position - 1) + 1 by omega, List.getElem?_cons_succ] at hmark
    have hmem := List.mem_of_getElem? hmark
    simp [htag, hplain] at hmem
  · obtain ⟨offset, rfl⟩ := Nat.exists_eq_add_of_le hright
    rw [Nat.add_assoc, List.getElem?_append_right (by omega), Nat.add_sub_cancel_left,
      Nat.add_comm] at hmark hletter
    rw [List.length_append] at hlt
    have hoffset : offset < nameClosing.length := by omega
    cases offset with
    | zero => simp [nameClosing] at hletter
    | succ offset =>
      rw [Nat.zero_add, List.getElem?_append_left hoffset, nameClosing,
        List.getElem?_cons_succ] at hmark
      have hmem := List.mem_of_getElem? hmark
      simp [htag] at hmem

/-- Among the positions inside an element only its own one gives a name. -/
theorem filterMap_taggedName?_width {text value after : Text} (position : Nat)
    (h : taggedName? text = some (value, after)) :
    ((List.range (nameOpening.length + value.length + nameClosing.length)).filterMap fun offset ↦
      (taggedName? (text.drop offset)).map fun found ↦ (position + offset, found.1)) =
      [(position, value)] := by
  obtain ⟨width, hwidth⟩ : ∃ width,
      nameOpening.length + value.length + nameClosing.length = width + 1 :=
    Nat.exists_eq_succ_of_ne_zero (by simp [nameOpening])
  obtain ⟨_, hplain, happend⟩ := taggedName?_eq_some_iff.mp h
  have hlater : ∀ offset < width, taggedName? (text.drop (offset + 1)) = none := by
    intro offset hoffset
    rw [← happend]
    exact taggedName?_drop_eq_none hplain (Nat.succ_pos offset) (by omega)
  have hrest : (List.range width).filterMap (fun offset ↦
      (taggedName? (text.drop (offset + 1))).map fun found ↦
        (position + (offset + 1), found.1)) = [] := by
    rw [List.filterMap_eq_nil_iff]
    intro offset hoffset
    rw [hlater offset (List.mem_range.mp hoffset), Option.map_none]
  calc
    ((List.range (nameOpening.length + value.length + nameClosing.length)).filterMap fun offset ↦
        (taggedName? (text.drop offset)).map fun found ↦ (position + offset, found.1)) =
        (position, value) :: (List.range width).filterMap (fun offset ↦
          (taggedName? (text.drop (offset + 1))).map fun found ↦
            (position + (offset + 1), found.1)) := by
      rw [hwidth, List.range_succ_eq_map, List.filterMap_cons, List.drop_zero, h,
        List.filterMap_map]
      rfl
    _ = [(position, value)] := by rw [hrest]

/-- The elements that are found one after the other are those at all positions. -/
theorem taggedNamesFrom_eq_filterMap (position : Nat) (text : Text) :
    taggedNamesFrom position text =
      (List.range text.length).filterMap fun offset ↦
        (taggedName? (text.drop offset)).map fun found ↦ (position + offset, found.1) := by
  fun_induction taggedNamesFrom position text with
  | case1 => rfl
  | case2 position c rest hnone ih =>
    rw [ih, List.length_cons, List.range_succ_eq_map, List.filterMap_cons, List.drop_zero, hnone,
      Option.map_none, List.filterMap_map]
    apply List.filterMap_congr
    intro offset _
    simp only [Function.comp_apply, List.drop_succ_cons]
    rw [Nat.add_right_comm, Nat.add_assoc]
  | case3 position c rest value after hsome width ih =>
    obtain ⟨_, _, happend⟩ := taggedName?_eq_some_iff.mp hsome
    have hlength : (c :: rest).length = width + after.length := by
      rw [← happend]
      simp only [List.length_append, width]
      omega
    have hdrop : ∀ offset, (c :: rest).drop (width + offset) = after.drop offset := by
      intro offset
      rw [← happend, ← List.append_assoc, ← List.append_assoc, List.drop_append,
        List.drop_eq_nil_of_le (by simp [width]; omega), List.nil_append]
      congr 1
      simp [width]
      omega
    let found (offset : Nat) :=
      (taggedName? ((c :: rest).drop offset)).map fun found ↦ (position + offset, found.1)
    have hlater : ((List.range after.length).map (width + ·)).filterMap found =
        taggedNamesFrom (position + width) after := by
      rw [ih, List.filterMap_map]
      apply List.filterMap_congr
      intro offset _
      simp only [found]
      rw [Function.comp_apply, hdrop, ← Nat.add_assoc]
    calc
      (position, value) :: taggedNamesFrom (position + width) after =
          (List.range width).filterMap found ++
            ((List.range after.length).map (width + ·)).filterMap found := by
        rw [hlater, filterMap_taggedName?_width position hsome, List.singleton_append]
      _ = (List.range (c :: rest).length).filterMap found := by
        rw [hlength, ← List.filterMap_append, ← List.range_add]

/-- What is done with each element that is found can be done at each position. -/
theorem filterMap_taggedNames {α : Type} (text : Text) (use : Nat → Text → Option α) :
    (taggedNames text).filterMap (fun (position, value) ↦ use position value) =
      (List.range text.length).filterMap fun position ↦
        (valueAt? text position).bind (use position) := by
  rw [taggedNames, taggedNamesFrom_eq_filterMap, List.filterMap_filterMap]
  apply List.filterMap_congr
  intro position _
  rw [valueAt?_eq_map_taggedName?]
  cases taggedName? (text.drop position) with
  | none => rfl
  | some found => simp only [Option.map_some, Option.bind_some, Nat.zero_add]

/-- The search in the collected tags finds the first kind that is open after the text before. -/
theorem find?_isOpenAt_collect (matching : Matching) (text : Text) (position : Nat) :
    (DefKind.all.map (TagOccurrences.collect matching text)).find? (·.isOpenAt position) =
      (DefKind.all.find? fun kind ↦ kind.IsOpenAfter matching (text.take position)).map
        (TagOccurrences.collect matching text) := by
  rw [List.find?_map]
  congr 2
  funext kind
  exact TagOccurrences.isOpenAt_collect matching text kind position

theorem taggedDefinitions_eq_filterMap_taggedNames (matching : Matching) (text : Text) :
    taggedDefinitions matching text = (taggedNames text).filterMap fun (position, value) ↦
      fileUnder? (fun kind ↦ kind.IsOpenAfter matching (text.take position)) value := by
  simp only [taggedDefinitions]
  split
  · rename_i hempty
    rw [List.isEmpty_iff.mp hempty]
    rfl
  · apply List.filterMap_congr
    intro found _
    simp only [find?_isOpenAt_collect, Option.map_map]
    rfl

/-- The first rule finds what the backward scan finds, for any text and both ways of matching. -/
theorem taggedDefinitions_eq_scanBackward (matching : Matching) (text : Text) :
    taggedDefinitions matching text = scanBackward matching text := by
  rw [taggedDefinitions_eq_filterMap_taggedNames]
  exact filterMap_taggedNames text fun position ↦
    fileUnder? fun kind ↦ kind.IsOpenAfter matching (text.take position)

end Markup

end DefCatalog
