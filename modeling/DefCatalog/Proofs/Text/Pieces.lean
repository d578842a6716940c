import DefCatalog.Text.Basic

/-!
# Cutting texts at a separator

Texts are cut at every separator, so that the pieces of a text around a separator are those before
it and those after it. The pieces hold no separators, and they are found again in their joined
text. The lines of a text are its pieces between line feeds. What is read of a text as long as some
test holds ends at the first character for which it does not.
-/

namespace DefCatalog.Text

variable {separator : Char} {text rest piece : Text} {pieces : List Text}

theorem takeWhile_dropWhile_append {test : Char → Bool} {front : Text}
    (hfront : ∀ c ∈ front, test c = true) (hrest : ∀ c more, rest = c :: more → test c = false) :
    (front ++ rest).takeWhile test = front ∧ (front ++ rest).dropWhile test = rest := by
  have hend : rest.takeWhile test = [] ∧ rest.dropWhile test = rest := by
    cases rest with
    | nil => exact ⟨rfl, rfl⟩
    | cons c more => simp [hrest c more rfl]
  rw [List.takeWhile_append_of_pos hfront, List.dropWhile_append_of_pos hfront, hend.1, hend.2,
    List.append_nil]
  exact ⟨rfl, rfl⟩

theorem splitOn_append_separator (separator : Char) (text rest : Text) :
    splitOn separator (text ++ separator :: rest) =
      splitOn separator text ++ splitOn separator rest := by
  induction text with
  | nil => simp [splitOn]
  | cons c text ih =>
    obtain ⟨first, more, hsplit⟩ := List.exists_cons_of_ne_nil (splitOn_ne_nil separator text)
    rw [List.cons_append, splitOn, splitOn, ih, hsplit]
    split <;> rfl

theorem splitOn_of_not_mem (h : separator ∉ text) : splitOn separator text = [text] := by
  induction text with
  | nil => rfl
  | cons c rest ih =>
    rw [List.mem_cons, not_or] at h
    rw [splitOn, if_neg (Ne.symm h.1), ih h.2]

theorem splitOn_append_cons (h : separator ∉ text) :
    splitOn separator (text ++ separator :: rest) = text :: splitOn separator rest := by
  rw [splitOn_append_separator, splitOn_of_not_mem h, List.singleton_append]

theorem not_mem_of_mem_splitOn (h : piece ∈ splitOn separator text) : separator ∉ piece := by
  induction text generalizing piece with
  | nil =>
    rw [splitOn, List.mem_singleton] at h
    rw [h]
    exact List.not_mem_nil
  | cons c rest ih =>
    obtain ⟨first, more, hsplit⟩ := List.exists_cons_of_ne_nil (splitOn_ne_nil separator rest)
    rw [splitOn, hsplit] at h
    rw [hsplit] at ih
    split at h
    · rcases List.mem_cons.mp h with rfl | hmem
      · exact List.not_mem_nil
      · exact ih hmem
    · rename_i hc
      rcases List.mem_cons.mp h with rfl | hmem
      · rw [List.mem_cons, not_or]
        exact ⟨Ne.symm hc, ih List.mem_cons_self⟩
      · exact ih (List.mem_cons_of_mem _ hmem)

theorem mem_of_mem_splitOn {c : Char} (hpiece : piece ∈ splitOn separator text) (hc : c ∈ piece) :
    c ∈ text := by
  induction text generalizing piece with
  | nil =>
    rw [splitOn, List.mem_singleton] at hpiece
    rwa [hpiece] at hc
  | cons first rest ih =>
    obtain ⟨next, more, hsplit⟩ := List.exists_cons_of_ne_nil (splitOn_ne_nil separator rest)
    rw [splitOn, hsplit] at hpiece
    rw [hsplit] at ih
    split at hpiece
    · rcases List.mem_cons.mp hpiece with rfl | hmem
      · cases hc
      · exact List.mem_cons_of_mem _ (ih hmem hc)
    · rcases List.mem_cons.mp hpiece with rfl | hmem
      · exact (List.mem_cons.mp hc).elim (fun heq ↦ heq ▸ List.mem_cons_self) fun hnext ↦
          List.mem_cons_of_mem _ (ih List.mem_cons_self hnext)
      · exact List.mem_cons_of_mem _ (ih (List.mem_cons_of_mem _ hmem) hc)

theorem splitOn_append_of_not_mem {first : Text} {more : List Text} (h : separator ∉ text)
    (hrest : splitOn separator rest = first :: more) :
    splitOn separator (text ++ rest) = (text ++ first) :: more := by
  induction text with
  | nil => exact hrest
  | cons c text ih =>
    rw [List.mem_cons, not_or] at h
    rw [List.cons_append, splitOn, if_neg (Ne.symm h.1), ih h.2]
    rfl

/-- A text is cut as it is after its characters have been spelled out, if only the separator is
spelled with separators, and as itself. -/
theorem splitOn_flatMap {spell : Char → Text} (hseparator : spell separator = [separator])
    (hothers : ∀ c, c ≠ separator → separator ∉ spell c) (text : Text) :
    splitOn separator (text.flatMap spell) = (splitOn separator text).map (List.flatMap spell) := by
  induction text with
  | nil => rfl
  | cons c rest ih =>
    obtain ⟨first, more, hsplit⟩ := List.exists_cons_of_ne_nil (splitOn_ne_nil separator rest)
    rw [hsplit, List.map_cons] at ih
    rw [List.flatMap_cons, splitOn, hsplit]
    by_cases hc : c = separator
    · rw [hc, hseparator, List.singleton_append, splitOn, if_pos rfl, if_pos rfl, ih]
      rfl
    · rw [if_neg hc, splitOn_append_of_not_mem (hothers c hc) ih]
      rfl

theorem length_splitOn (separator : Char) (text : Text) :
    (splitOn separator text).length = text.count separator + 1 := by
  induction text with
  | nil => rfl
  | cons c rest ih =>
    obtain ⟨first, more, hsplit⟩ := List.exists_cons_of_ne_nil (splitOn_ne_nil separator rest)
    rw [hsplit, List.length_cons] at ih
    rw [splitOn, hsplit, List.count_cons]
    by_cases hc : c = separator
    · rw [if_pos hc, if_pos (beq_iff_eq.mpr hc), List.length_cons, List.length_cons, ih]
    · rw [if_neg hc, if_neg (mt beq_iff_eq.mp hc), List.length_cons, ih]

theorem length_splitOn_eq_one_iff : (splitOn separator text).length = 1 ↔ separator ∉ text := by
  rw [length_splitOn, Nat.add_eq_right, List.count_eq_zero]

theorem getLast?_of_splitOn (h : (splitOn separator text).getLast? = some []) :
    text = [] ∨ text.getLast? = some separator := by
  induction text with
  | nil => exact Or.inl rfl
  | cons c rest ih =>
    obtain ⟨piece, pieces, hsplit⟩ := List.exists_cons_of_ne_nil (splitOn_ne_nil separator rest)
    have hlast : rest.getLast? = some separator → (c :: rest).getLast? = some separator := by
      intro hrest
      rw [List.getLast?_cons, hrest]
      rfl
    rw [splitOn, hsplit] at h
    rw [hsplit] at ih
    split at h
    · rename_i hc
      rw [List.getLast?_cons_cons] at h
      rcases ih h with rfl | hrest
      · rw [hc]
        exact Or.inr rfl
      · exact Or.inr (hlast hrest)
    · cases pieces with
      | nil => cases h
      | cons next more =>
        rw [List.getLast?_cons_cons] at h
        rw [List.getLast?_cons_cons] at ih
        rcases ih h with rfl | hrest
        · cases hsplit
        · exact Or.inr (hlast hrest)

theorem splitOn_intercalate (hne : pieces ≠ []) (h : ∀ piece ∈ pieces, separator ∉ piece) :
    splitOn separator ([separator].intercalate pieces) = pieces := by
  induction pieces with
  | nil => exact absurd rfl hne
  | cons piece pieces ih =>
    rw [List.forall_mem_cons] at h
    cases pieces with
    | nil => rw [List.intercalate_singleton, splitOn_of_not_mem h.1]
    | cons next more =>
      calc
        splitOn separator ([separator].intercalate (piece :: next :: more)) =
            splitOn separator (piece ++ separator :: [separator].intercalate (next :: more)) := by
          rw [List.intercalate_cons_of_ne_nil (List.cons_ne_nil _ _), List.append_assoc,
            List.singleton_append]
        _ = piece :: splitOn separator ([separator].intercalate (next :: more)) :=
          splitOn_append_cons h.1
        _ = piece :: next :: more := by rw [ih (List.cons_ne_nil _ _) h.2]

theorem splitOn_intercalate_append (hne : pieces ≠ []) (h : ∀ piece ∈ pieces, separator ∉ piece) :
    splitOn separator ([separator].intercalate pieces ++ separator :: rest) =
      pieces ++ splitOn separator rest := by
  rw [splitOn_append_separator, splitOn_intercalate hne h]

theorem intercalate_prefix (separator : Text) (pieces more : List Text) :
    separator.intercalate pieces <+: separator.intercalate (pieces ++ more) := by
  induction pieces with
  | nil => exact List.nil_prefix
  | cons piece pieces ih =>
    cases pieces with
    | nil =>
      cases more with
      | nil => simp only [List.append_nil, List.prefix_refl]
      | cons next more =>
        rw [List.intercalate_singleton, List.singleton_append,
          List.intercalate_cons_of_ne_nil (List.cons_ne_nil _ _), List.append_assoc]
        exact List.prefix_append _ _
    | cons next rest =>
      rw [List.cons_append, List.cons_append, List.intercalate_cons_of_ne_nil (List.cons_ne_nil _ _),
        List.intercalate_cons_of_ne_nil (List.cons_ne_nil _ _)]
      exact (List.prefix_append_right_inj _).mpr ih

theorem prefix_of_splitOn_prefix {other : Text}
    (h : splitOn separator text <+: splitOn separator other) : text <+: other := by
  obtain ⟨more, hmore⟩ := h
  rw [← intercalate_splitOn separator text, ← intercalate_splitOn separator other, ← hmore]
  exact intercalate_prefix _ _ _

/-- The lines of a text in which each line ends with a line feed. -/
def lines (text : Text) : List Text :=
  (splitOn '\n' text).dropLast

theorem lines_flatMap (printed : List Text) :
    lines (printed.flatMap (· ++ ['\n'])) = printed.flatMap (splitOn '\n') := by
  induction printed with
  | nil => rfl
  | cons line printed ih =>
    have hne := splitOn_ne_nil '\n' (printed.flatMap (· ++ ['\n']))
    calc
      lines ((line :: printed).flatMap (· ++ ['\n'])) =
          (splitOn '\n' (line ++ '\n' :: printed.flatMap (· ++ ['\n']))).dropLast := by
        rw [List.flatMap_cons, List.append_assoc, List.singleton_append, lines]
      _ = splitOn '\n' line ++ lines (printed.flatMap (· ++ ['\n'])) := by
        rw [splitOn_append_separator, List.dropLast_append_of_ne_nil hne, lines]
      _ = (line :: printed).flatMap (splitOn '\n') := by rw [ih, List.flatMap_cons]

theorem length_le_flatMap_splitOn (separator : Char) (printed : List Text) :
    printed.length ≤ (printed.flatMap (splitOn separator)).length := by
  induction printed with
  | nil => exact Nat.le_refl 0
  | cons line printed ih =>
    rw [List.flatMap_cons, List.length_append, length_splitOn, List.length_cons]
    omega

theorem not_mem_of_length_lines {printed : List Text}
    (h : (lines (printed.flatMap (· ++ ['\n']))).length = printed.length) :
    ∀ line ∈ printed, '\n' ∉ line := by
  rw [lines_flatMap] at h
  induction printed with
  | nil => exact fun _ hnone ↦ nomatch hnone
  | cons line printed ih =>
    have hrest := length_le_flatMap_splitOn '\n' printed
    rw [List.flatMap_cons, List.length_append, length_splitOn, List.length_cons] at h
    have hline : line.count '\n' = 0 := by omega
    rw [List.forall_mem_cons]
    exact ⟨List.count_eq_zero.mp hline, ih (by omega)⟩

theorem lines_flatMap_of_not_mem {printed : List Text} (h : ∀ line ∈ printed, '\n' ∉ line) :
    lines (printed.flatMap (· ++ ['\n'])) = printed := by
  rw [lines_flatMap]
  induction printed with
  | nil => rfl
  | cons line printed ih =>
    rw [List.forall_mem_cons] at h
    rw [List.flatMap_cons, splitOn_of_not_mem h.1, ih h.2, List.singleton_append]

end DefCatalog.Text
