import DefCatalog.Proofs.Files.Ancestors

/-!
# The components of paths that are put together

A path has the component that its head stands for and those of its steps. What is put after a path
adds its own steps and leaves the head as it is, so the components of the path come first.
-/

namespace DefCatalog.Path

open FileSystem

variable {path base : Path} {name : Text} {names : List Text}

theorem headAndBody_fst (path : Path) :
    path.headAndBody.1 = if path.isAbsolute then some .root
      else if (Text.splitOn '/' path.spelling).head? = some ['.'] then some .here else none := by
  unfold headAndBody
  split
  · rename_i hnil
    exact absurd hnil (Text.splitOn_ne_nil '/' path.spelling)
  · rename_i first rest hsplit
    rw [hsplit]
    split
    · rfl
    · simp only [List.head?_cons, Option.some.injEq]
      split <;> rfl

theorem components_ne_nil (h : path.spelling ≠ []) : path.components ≠ [] := by
  obtain ⟨first, more, hsplit⟩ := List.exists_cons_of_ne_nil (Text.splitOn_ne_nil '/' path.spelling)
  have hfirst := isAbsolute_iff h
  rw [hsplit, List.head?_cons, Option.some.injEq] at hfirst
  unfold components headAndBody
  rw [hsplit]
  dsimp only
  split
  · exact List.cons_ne_nil _ _
  · rename_i hrelative
    split
    · exact List.cons_ne_nil _ _
    · rename_i hdot
      have hkept : (!isIdle first) = true := by
        simpa [isIdle] using And.intro (mt hfirst.mpr hrelative) hdot
      simp [List.filter_cons_of_pos (p := (!isIdle ·)) hkept]

theorem headAndBody_append (hbase : base.spelling ≠ []) (tail : Text) :
    (⟨base.spelling ++ '/' :: tail⟩ : Path).headAndBody =
      (base.headAndBody.1, base.headAndBody.2 ++ Text.splitOn '/' tail) := by
  obtain ⟨first, more, hsplit⟩ := List.exists_cons_of_ne_nil (Text.splitOn_ne_nil '/' base.spelling)
  have hjoin : Text.splitOn '/' (base.spelling ++ '/' :: tail) =
      first :: (more ++ Text.splitOn '/' tail) := by
    rw [Text.splitOn_append_separator, hsplit, List.cons_append]
  have habsolute : (⟨base.spelling ++ '/' :: tail⟩ : Path).isAbsolute = base.isAbsolute := by
    obtain ⟨c, others, hspelling⟩ := List.exists_cons_of_ne_nil hbase
    simp only [isAbsolute, hspelling, List.cons_append, List.head?_cons]
  unfold headAndBody
  rw [hjoin, hsplit, habsolute]
  dsimp only
  split
  · rfl
  · split <;> rfl

theorem components_append (hbase : base.spelling ≠ []) (tail : Text) :
    (⟨base.spelling ++ '/' :: tail⟩ : Path).components =
      base.components ++ (⟨tail⟩ : Path).steps.map Component.ofSegment := by
  unfold components
  rw [headAndBody_append hbase]
  dsimp only
  rw [List.filter_append, List.map_append, ← List.append_assoc]
  rfl

theorem join_of_spelling_eq_nil (hbase : base.spelling = []) (hname : '/' ∉ name) :
    base.join ⟨name⟩ = ⟨name⟩ := by
  unfold join
  rw [isAbsolute_of_not_mem hname, if_neg Bool.false_ne_true, if_pos (by simp [hbase]), hbase]
  rfl

theorem steps_join (hname : IsEntryName name) :
    (base.join ⟨name⟩).steps = base.steps ++ [name] := by
  have hlast : [name].filter (!isIdle ·) = [name] := List.filter_cons_of_pos (by simp [hname.1.1])
  unfold steps
  by_cases hbase : base.spelling = []
  · rw [join_of_spelling_eq_nil hbase hname.2, Text.splitOn_of_not_mem hname.2, hlast, hbase]
    rfl
  · obtain ⟨segments, hjoin, hsegments⟩ := splitOn_join hbase hname.2
    rw [hjoin, List.filter_append, hlast]
    rcases hsegments with hsame | hslash
    · rw [hsame]
    · have hidle : [([] : Text)].filter (!isIdle ·) = [] := rfl
      rw [hslash, List.filter_append, hidle, List.append_nil]

theorem headAndBody_fst_join (hname : IsEntryName name) :
    (base.join ⟨name⟩).headAndBody.1 = base.headAndBody.1 := by
  rw [headAndBody_fst, headAndBody_fst]
  by_cases hbase : base.spelling = []
  · have hdot : name ≠ ['.'] := by
      rintro rfl
      exact absurd hname.1.1 (by decide)
    have habsolute : base.isAbsolute = false := by rw [isAbsolute, hbase]; rfl
    rw [join_of_spelling_eq_nil hbase hname.2, isAbsolute_of_not_mem hname.2, habsolute,
      Text.splitOn_of_not_mem hname.2, hbase, List.head?_cons]
    simp only [Option.some.injEq, if_neg hdot]
    rfl
  · obtain ⟨segments, hjoin, hsegments⟩ := splitOn_join hbase hname.2
    have hsome : segments ≠ [] := by
      rintro rfl
      have hne := Text.splitOn_ne_nil '/' base.spelling
      have hjoined := Text.intercalate_splitOn '/' base.spelling
      rcases hsegments with hsame | hslash
      · exact hne hsame
      · rw [hslash] at hjoined
        exact hbase hjoined.symm
    obtain ⟨first, rest, rfl⟩ := List.exists_cons_of_ne_nil hsome
    rw [isAbsolute_join hbase hname.2, hjoin]
    rcases hsegments with hsame | hslash
    · rw [hsame]
      rfl
    · rw [hslash]
      rfl

theorem components_join (hname : IsEntryName name) :
    (base.join ⟨name⟩).components = base.components ++ [.name name] := by
  have hlast : Component.ofSegment name = .name name := if_neg hname.1.2
  calc
    (base.join ⟨name⟩).components =
        base.headAndBody.1.toList ++ (base.steps ++ [name]).map Component.ofSegment := by
      rw [components_eq, headAndBody_fst_join hname, steps_join hname]
    _ = base.headAndBody.1.toList ++ base.steps.map Component.ofSegment ++ [.name name] := by
      rw [List.map_append, List.map_singleton, hlast, List.append_assoc]
    _ = base.components ++ [.name name] := by rw [← components_eq]

/-- The path that goes on from a path by names. -/
def below (base : Path) (names : List Text) : Path :=
  names.foldl (fun path name ↦ path.join ⟨name⟩) base

theorem components_below (hnames : ∀ name ∈ names, IsEntryName name) :
    (base.below names).components = base.components ++ names.map .name := by
  induction names generalizing base with
  | nil => exact (List.append_nil _).symm
  | cons name names ih =>
    have hname : IsEntryName name := hnames name List.mem_cons_self
    have hrest : ∀ name ∈ names, IsEntryName name :=
      fun name hmem ↦ hnames name (List.mem_cons_of_mem _ hmem)
    calc
      (base.below (name :: names)).components = ((base.join ⟨name⟩).below names).components := rfl
      _ = base.components ++ [.name name] ++ names.map .name := by
        rw [ih hrest, components_join hname]
      _ = base.components ++ (name :: names).map .name := by
        rw [List.append_assoc, List.map_cons]
        rfl

end DefCatalog.Path
