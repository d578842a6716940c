import DefCatalog.Markup.TagSpan
import Mathlib.Data.List.Infix
import Mathlib.Order.Bounds.Basic

/-!
# Occurrences of a tag, and the search for the last one

A position of a text is an occurrence of a tag pattern if the whole pattern stands there. The spans
that are collected in one pass are exactly the occurrences, in ascending order, although the pass
jumps over every spelling that it finds: a pattern holds no second `<`, so no occurrence begins
inside another one. The binary search on the ends of the spans then finds the last occurrence that
ends at or before a limit.
-/

namespace DefCatalog

namespace TagPattern

/-- The number of characters of an occurrence. -/
def width (pattern : TagPattern) : Nat :=
  pattern.lead.length + if pattern.bounded then 1 else 0

/-- Whether the pattern stands at a position of the text, with the character that has to end it. -/
def OccursAt (pattern : TagPattern) (text : Text) (start : Nat) : Prop :=
  pattern.lead <+: text.drop start ∧
    (pattern.bounded = true → (text[start + pattern.lead.length]?).any isTagEnd = true)

instance (pattern : TagPattern) (text : Text) (start : Nat) :
    Decidable (pattern.OccursAt text start) :=
  inferInstanceAs (Decidable (_ ∧ _))

variable {pattern : TagPattern} {text : Text} {start : Nat}

theorem lead_length_pos (pattern : TagPattern) : 0 < pattern.lead.length := by
  simp [lead]

theorem lead_length_le_width (pattern : TagPattern) : pattern.lead.length ≤ pattern.width :=
  Nat.le_add_right _ _

theorem not_occursAt_nil : ¬pattern.OccursAt [] start := by
  rintro ⟨hlead, _⟩
  simp [lead] at hlead

@[simp]
theorem occursAt_append_length_add (before : Text) :
    pattern.OccursAt (before ++ text) (before.length + start) ↔ pattern.OccursAt text start := by
  unfold OccursAt
  rw [List.drop_append, List.drop_eq_nil_of_le (by omega), Nat.add_sub_cancel_left,
    List.nil_append, Nat.add_assoc, List.getElem?_append_right (by omega),
    Nat.add_sub_cancel_left]

@[simp]
theorem occursAt_cons_succ (c : Char) :
    pattern.OccursAt (c :: text) (start + 1) ↔ pattern.OccursAt text start := by
  rw [Nat.add_comm]
  exact occursAt_append_length_add [c]

theorem occursAt_drop_iff {position : Nat} :
    pattern.OccursAt (text.drop position) start ↔ pattern.OccursAt text (position + start) := by
  unfold OccursAt
  rw [List.drop_drop, List.getElem?_drop, Nat.add_assoc]

theorem getElem?_of_occursAt (h : pattern.OccursAt text start) : text[start]? = some '<' := by
  obtain ⟨rest, hrest⟩ := h.1
  have hhead := congrArg List.head? hrest
  rw [List.head?_drop] at hhead
  exact hhead.symm

/-- A bounded pattern stands at the head of a text if the spelling stands there with a tag end
behind it. -/
theorem occursAt_zero_iff (h : pattern.bounded = true) :
    pattern.OccursAt text 0 ↔ ∃ c rest, pattern.lead ++ c :: rest = text ∧ isTagEnd c = true := by
  unfold OccursAt
  rw [List.drop_zero, Nat.zero_add]
  constructor
  · rintro ⟨⟨after, rfl⟩, hend⟩
    have hmark := hend h
    rw [List.getElem?_append_right (Nat.le_refl _), Nat.sub_self] at hmark
    cases after with
    | nil => cases hmark
    | cons c rest => exact ⟨c, rest, rfl, hmark⟩
  · rintro ⟨c, rest, rfl, hc⟩
    refine ⟨List.prefix_append _ _, fun _ ↦ ?_⟩
    rw [List.getElem?_append_right (Nat.le_refl _), Nat.sub_self]
    exact hc

theorem isTagEnd_lt : isTagEnd '<' = false := by decide

theorem width_le_of_occursAt {position : Nat} (h : pattern.OccursAt text start)
    (hposition : text[position]? = some '<') (hlt : start < position) :
    start + pattern.width ≤ position := by
  by_contra hinside
  obtain ⟨⟨rest, hrest⟩, hend⟩ := h
  have hchar : (pattern.lead ++ rest)[position - start]? = some '<' := by
    rw [hrest, List.getElem?_drop, Nat.add_sub_cancel' (Nat.le_of_lt hlt), hposition]
  rcases Nat.lt_or_ge (position - start) pattern.lead.length with hlead | hlead
  · -- inside the spelling: only its first character is a `<`
    rw [List.getElem?_append_left hlead, lead,
      show position - start = (position - start - 1) + 1 by omega, List.getElem?_cons_succ] at hchar
    exact pattern.tail_plain (List.mem_of_getElem? hchar)
  · -- right after the spelling: the pattern is bounded, and a `<` ends no name
    unfold width at hinside
    split at hinside
    · rename_i hbounded
      have hmark := hend hbounded
      rw [show start + pattern.lead.length = position by omega, hposition] at hmark
      simp [isTagEnd_lt] at hmark
    · omega

theorem occursAt_take_iff {limit : Nat} :
    pattern.OccursAt (text.take limit) start ↔
      pattern.OccursAt text start ∧ start + pattern.width ≤ limit := by
  have hpositive := pattern.lead_length_pos
  unfold OccursAt width
  rw [List.drop_take, List.prefix_take_iff, List.getElem?_take]
  cases pattern.bounded with
  | false =>
    simp only [Bool.false_eq_true, false_implies, and_true, if_false, Nat.add_zero]
    exact and_congr_right fun _ ↦ by omega
  | true =>
    simp only [true_implies, if_true]
    split
    · constructor
      · rintro ⟨⟨hlead, _⟩, hmark⟩
        exact ⟨⟨hlead, hmark⟩, by omega⟩
      · rintro ⟨⟨hlead, hmark⟩, _⟩
        exact ⟨⟨hlead, by omega⟩, hmark⟩
    · constructor
      · rintro ⟨_, hmark⟩
        simp at hmark
      · rintro ⟨_, hle⟩
        omega

theorem occursAt_take_iff_of_mark {limit : Nat} (h : text[limit]? = some '<') :
    pattern.OccursAt (text.take limit) start ↔ start < limit ∧ pattern.OccursAt text start := by
  rw [occursAt_take_iff]
  have hpositive := pattern.lead_length_pos
  have hle := pattern.lead_length_le_width
  constructor
  · rintro ⟨hoccurs, hwidth⟩
    exact ⟨by omega, hoccurs⟩
  · rintro ⟨hlt, hoccurs⟩
    exact ⟨hoccurs, width_le_of_occursAt hoccurs h hlt⟩

/-! ## The spans of one pass -/

theorem not_occursAt_zero_of_after?_eq_none {c : Char} {rest : Text}
    (h : Text.after? pattern.lead (c :: rest) = none) : ¬pattern.OccursAt (c :: rest) 0 := by
  rintro ⟨⟨inner, hinner⟩, _⟩
  rw [List.drop_zero] at hinner
  rw [← hinner, Text.after?_append] at h
  cases h

theorem endWidth?_eq_some_iff {inner : Text} {extra : Nat} :
    pattern.endWidth? inner = some extra ↔
      pattern.OccursAt (pattern.lead ++ inner) 0 ∧ pattern.lead.length + extra = pattern.width := by
  have hlead : pattern.lead <+: (pattern.lead ++ inner).drop 0 := by simp
  unfold OccursAt endWidth? width
  simp only [hlead, true_and, Nat.zero_add, List.getElem?_append_right (Nat.le_refl _),
    Nat.sub_self]
  cases pattern.bounded with
  | false =>
    simp only [Option.some.injEq, Bool.false_eq_true, false_implies, true_and, if_false]
    omega
  | true =>
    cases inner with
    | nil => simp
    | cons c rest =>
      by_cases hc : isTagEnd c = true
      · simp [hc]
        omega
      · simp [hc]

theorem occursAt_append_iff {front : Text} (h : '<' ∉ front) :
    pattern.OccursAt (front ++ text) start ↔
      ∃ more, start = front.length + more ∧ pattern.OccursAt text more := by
  constructor
  · intro hoccurs
    have hge : front.length ≤ start := by
      by_contra hlt
      have hmark := getElem?_of_occursAt hoccurs
      rw [List.getElem?_append_left (Nat.not_le.mp hlt)] at hmark
      exact h (List.mem_of_getElem? hmark)
    obtain ⟨more, rfl⟩ := Nat.exists_eq_add_of_le hge
    exact ⟨more, rfl, (occursAt_append_length_add front).mp hoccurs⟩
  · rintro ⟨more, rfl, hoccurs⟩
    exact (occursAt_append_length_add front).mpr hoccurs

/-- Where the first character is the only `<`, an occurrence begins there or behind. -/
theorem occursAt_cons_append_iff {c : Char} {body : Text} (h : '<' ∉ body) :
    pattern.OccursAt (c :: body ++ text) start ↔
      (start = 0 ∧ pattern.OccursAt (c :: body ++ text) 0) ∨
        ∃ more, start = (c :: body).length + more ∧ pattern.OccursAt text more := by
  cases start with
  | zero =>
    constructor
    · exact fun hzero ↦ Or.inl ⟨rfl, hzero⟩
    · rintro (⟨_, hzero⟩ | ⟨more, hmore, _⟩)
      · exact hzero
      · simp only [List.length_cons] at hmore
        omega
  | succ start =>
    rw [List.cons_append, occursAt_cons_succ, occursAt_append_iff h]
    simp only [List.length_cons, Nat.succ_ne_zero, false_and, false_or]
    exact exists_congr fun more ↦ and_congr_left' (by omega)

/-- No occurrence begins inside the spelling of another one, since each one begins with a `<`. -/
theorem occursAt_lead_append_iff {inner : Text} :
    pattern.OccursAt (pattern.lead ++ inner) start ↔
      (start = 0 ∧ pattern.OccursAt (pattern.lead ++ inner) 0) ∨
        ∃ more, start = pattern.lead.length + more ∧ pattern.OccursAt inner more :=
  occursAt_cons_append_iff pattern.tail_plain

/-- The span that one spelling gives. -/
theorem mem_map_endWidth?_iff {inner : Text} {position : Nat} {span : TagSpan} :
    span ∈ ((pattern.endWidth? inner).map fun width ↦
        (⟨position, position + pattern.lead.length + width⟩ : TagSpan)).toList ↔
      pattern.OccursAt (pattern.lead ++ inner) 0 ∧ span = ⟨position, position + pattern.width⟩ := by
  rw [Option.mem_toList, Option.map_eq_some_iff]
  constructor
  · rintro ⟨extra, hextra, rfl⟩
    obtain ⟨hoccurs, hwidth⟩ := endWidth?_eq_some_iff.mp hextra
    rw [Nat.add_assoc, hwidth]
    exact ⟨hoccurs, rfl⟩
  · rintro ⟨hoccurs, rfl⟩
    have hwidth := Nat.add_sub_cancel' pattern.lead_length_le_width
    refine ⟨pattern.width - pattern.lead.length, endWidth?_eq_some_iff.mpr ⟨hoccurs, hwidth⟩, ?_⟩
    rw [Nat.add_assoc, hwidth]

/-- One pass collects exactly the occurrences, although it goes on after each spelling. -/
theorem mem_spansFrom_iff {position : Nat} {span : TagSpan} :
    span ∈ pattern.spansFrom position text ↔
      ∃ start, pattern.OccursAt text start ∧
        span = ⟨position + start, position + start + pattern.width⟩ := by
  fun_induction pattern.spansFrom position text with
  | case1 position => simp [not_occursAt_nil]
  | case2 position c rest hnone ih =>
    rw [ih]
    constructor
    · rintro ⟨start, hstart, rfl⟩
      refine ⟨start + 1, (occursAt_cons_succ c).mpr hstart, ?_⟩
      simp only [TagSpan.mk.injEq]
      omega
    · rintro ⟨start, hstart, rfl⟩
      cases start with
      | zero => exact absurd hstart (not_occursAt_zero_of_after?_eq_none hnone)
      | succ start =>
        refine ⟨start, (occursAt_cons_succ c).mp hstart, ?_⟩
        simp only [TagSpan.mk.injEq]
        omega
  | case3 position c rest inner hinner stop found ih =>
    rw [List.mem_append, ih, mem_map_endWidth?_iff, ← Text.after?_eq_some_iff.mp hinner]
    constructor
    · rintro (⟨hoccurs, rfl⟩ | ⟨more, hmore, rfl⟩)
      · exact ⟨0, hoccurs, rfl⟩
      · refine ⟨_, occursAt_lead_append_iff.mpr (Or.inr ⟨more, rfl, hmore⟩), ?_⟩
        rw [← Nat.add_assoc]
    · rintro ⟨start, hstart, rfl⟩
      rcases occursAt_lead_append_iff.mp hstart with ⟨rfl, hoccurs⟩ | ⟨more, rfl, hmore⟩
      · exact Or.inl ⟨hoccurs, rfl⟩
      · refine Or.inr ⟨more, hmore, ?_⟩
        rw [← Nat.add_assoc]

theorem pairwise_spansFrom (position : Nat) (text : Text) :
    (pattern.spansFrom position text).Pairwise (fun a b ↦ a.start < b.start) := by
  fun_induction pattern.spansFrom position text with
  | case1 => exact List.Pairwise.nil
  | case2 _ _ _ _ ih => exact ih
  | case3 position c rest inner hinner stop found ih =>
    have hpositive := pattern.lead_length_pos
    refine List.pairwise_append.mpr ⟨?_, ih, ?_⟩
    · cases found with
      | none => exact List.Pairwise.nil
      | some span => exact List.pairwise_singleton _ _
    · intro a ha b hb
      obtain ⟨start, _, rfl⟩ := mem_spansFrom_iff.mp hb
      obtain ⟨extra, _, rfl⟩ : ∃ extra, pattern.endWidth? inner = some extra ∧
          (⟨position, stop + extra⟩ : TagSpan) = a := by
        simpa [found] using ha
      simp only [stop]
      omega

end TagPattern

/-! ## The search for the last span -/

namespace TagSpan

variable {spans : Array TagSpan} {limit : Nat}

/-- The spans stand in the order of their first characters and of their ends. -/
structure Ascending (spans : Array TagSpan) : Prop where
  start_le : ∀ i j (hi : i < spans.size) (hj : j < spans.size),
    i ≤ j → spans[i].start ≤ spans[j].start
  stop_le : ∀ i j (hi : i < spans.size) (hj : j < spans.size),
    i ≤ j → spans[i].stop ≤ spans[j].stop

/-- The spans before `count` end at or before the limit, and those from there on beyond it. -/
structure Splits (spans : Array TagSpan) (limit low high : Nat) : Prop where
  low_le : low ≤ high
  high_le : high ≤ spans.size
  below : ∀ i (h : i < spans.size), i < low → spans[i].stop ≤ limit
  above : ∀ i (h : i < spans.size), high ≤ i → limit < spans[i].stop

theorem splits_go (hsorted : Ascending spans) {low high : Nat} (h : Splits spans limit low high) :
    Splits spans limit (countUpTo.go spans limit low high)
      (countUpTo.go spans limit low high) := by
  fun_induction countUpTo.go spans limit low high with
  | case1 low high hlt middle span hspan hle ih =>
    obtain ⟨hmiddle, rfl⟩ := Array.getElem?_eq_some_iff.mp hspan
    refine ih ⟨by omega, h.high_le, fun i hi hlow ↦ ?_, h.above⟩
    exact Nat.le_trans (hsorted.stop_le i middle hi hmiddle (by omega)) hle
  | case2 low high hlt middle span hspan hgt ih =>
    obtain ⟨hmiddle, rfl⟩ := Array.getElem?_eq_some_iff.mp hspan
    refine ih ⟨by omega, by omega, h.below, fun i hi hhigh ↦ ?_⟩
    exact Nat.lt_of_lt_of_le (by omega) (hsorted.stop_le middle i hmiddle hi hhigh)
  | case3 low high hlt middle hnone =>
    have hsize := h.high_le
    have hmiddle := Array.getElem?_eq_none_iff.mp hnone
    omega
  | case4 low high hge =>
    have hle := h.low_le
    have heq : high = low := by omega
    subst heq
    exact h

theorem splits_countUpTo (hsorted : Ascending spans) (limit : Nat) :
    Splits spans limit (countUpTo spans limit) (countUpTo spans limit) := by
  refine splits_go hsorted ⟨Nat.zero_le _, Nat.le_refl _, ?_, ?_⟩
  · intro i _ hi
    exact absurd hi (Nat.not_lt_zero i)
  · intro i hi hsize
    omega

theorem lastStartBefore?_eq_some_iff (hsorted : Ascending spans) {start : Nat} :
    lastStartBefore? spans limit = some start ↔
      IsGreatest {s | ∃ span ∈ spans, span.stop ≤ limit ∧ span.start = s} start := by
  have hsplits := splits_countUpTo hsorted limit
  -- the last of the counted spans has the greatest start
  have hlast : ∀ count, countUpTo spans limit = count + 1 → ∃ span, spans[count]? = some span ∧
      IsGreatest {s | ∃ span ∈ spans, span.stop ≤ limit ∧ span.start = s} span.start := by
    intro count hcount
    have hsize : count < spans.size := by
      have := hsplits.high_le
      omega
    refine ⟨spans[count], Array.getElem?_eq_getElem hsize, ?_, ?_⟩
    · exact ⟨_, Array.getElem_mem hsize, hsplits.below count hsize (by omega), rfl⟩
    · rintro s ⟨span, hspan, hstop, rfl⟩
      obtain ⟨i, hi, rfl⟩ := Array.getElem_of_mem hspan
      apply hsorted.start_le i count hi hsize
      by_contra hgt
      have habove := hsplits.above i hi (by omega)
      omega
  unfold lastStartBefore?
  split
  · rename_i hzero
    constructor
    · intro h
      cases h
    · rintro ⟨⟨span, hspan, hstop, _⟩, _⟩
      obtain ⟨i, hi, rfl⟩ := Array.getElem_of_mem hspan
      have habove := hsplits.above i hi (by omega)
      omega
  · rename_i count hcount
    obtain ⟨span, hspan, hgreatest⟩ := hlast count hcount
    rw [hspan, Option.map_some, Option.some.injEq]
    constructor
    · rintro rfl
      exact hgreatest
    · exact hgreatest.unique

end TagSpan

namespace TagPattern

variable {pattern : TagPattern}

theorem ascending_spans (pattern : TagPattern) (text : Text) :
    TagSpan.Ascending (pattern.spans text) := by
  have hstart : ∀ i j (hi : i < (pattern.spans text).size) (hj : j < (pattern.spans text).size),
      i ≤ j → (pattern.spans text)[i].start ≤ (pattern.spans text)[j].start := by
    intro i j hi hj hij
    rcases Nat.eq_or_lt_of_le hij with rfl | hlt
    · exact Nat.le_refl _
    · exact Nat.le_of_lt (List.pairwise_iff_getElem.mp (pairwise_spansFrom 0 text) i j
        (by simpa [spans] using hi) (by simpa [spans] using hj) hlt)
  refine ⟨hstart, fun i j hi hj hij ↦ ?_⟩
  have hstop : ∀ k (hk : k < (pattern.spans text).size),
      (pattern.spans text)[k].stop = (pattern.spans text)[k].start + pattern.width := by
    intro k hk
    obtain ⟨start, _, hspan⟩ := mem_spansFrom_iff.mp (List.mem_toArray.mp (Array.getElem_mem hk))
    rw [hspan]
  rw [hstop i hi, hstop j hj]
  exact Nat.add_le_add_right (hstart i j hi hj hij) _

/-- Collecting the spans once and searching them gives the last occurrence that lies wholly in the
beginning of the text. -/
theorem lastStartBefore?_spans_eq_some_iff {text : Text} {limit start : Nat} :
    TagSpan.lastStartBefore? (pattern.spans text) limit = some start ↔
      IsGreatest {s | pattern.OccursAt (text.take limit) s} start := by
  have hset : {s | ∃ span ∈ pattern.spans text, span.stop ≤ limit ∧ span.start = s} =
      {s | pattern.OccursAt (text.take limit) s} := by
    ext s
    simp only [Set.mem_ofPred_eq, occursAt_take_iff, spans, List.mem_toArray, mem_spansFrom_iff]
    constructor
    · rintro ⟨_, ⟨start, hstart, rfl⟩, hstop, rfl⟩
      simp only [Nat.zero_add] at hstop ⊢
      exact ⟨hstart, hstop⟩
    · rintro ⟨hstart, hstop⟩
      exact ⟨_, ⟨s, hstart, rfl⟩, by simpa using hstop, by simp⟩
  rw [TagSpan.lastStartBefore?_eq_some_iff (ascending_spans pattern text), hset]

end TagPattern

end DefCatalog
