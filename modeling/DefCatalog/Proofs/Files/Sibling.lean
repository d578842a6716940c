import DefCatalog.Proofs.Files.Walk
import DefCatalog.Proofs.Text.Pieces
import Mathlib.Data.List.Basic

/-!
# Paths with another name at the end

Giving a path another name drops the idle segments before the last one, and leaves the segments
before those as they are. So the path with the new name lies in the same directory.
-/

namespace DefCatalog

namespace Path

theorem isAbsolute_iff {path : Path} (h : path.spelling ≠ []) :
    path.isAbsolute = true ↔ (Text.splitOn '/' path.spelling).head? = some [] := by
  obtain ⟨c, rest, hspelling⟩ := List.exists_cons_of_ne_nil h
  obtain ⟨first, more, hsplit⟩ := List.exists_cons_of_ne_nil (Text.splitOn_ne_nil '/' rest)
  unfold isAbsolute
  rw [hspelling, Text.splitOn, hsplit]
  by_cases hc : c = '/' <;> simp [hc]

/-- The segments that the head of a path stands for. -/
def headSegments : Option Component → List Text
  | some .root => [[]]
  | some .here => [['.']]
  | _ => []

theorem filter_headSegments (head : Option Component) :
    (headSegments head).filter (!isIdle ·) = [] := by
  unfold headSegments
  split <;> rfl

theorem not_mem_headSegments_append {head : Option Component} {segments : List Text}
    (hplain : ∀ segment ∈ segments, '/' ∉ segment) :
    ∀ segment ∈ headSegments head ++ segments, '/' ∉ segment := by
  intro segment hmem
  rcases List.mem_append.mp hmem with hhead | hsegment
  · revert hhead
    unfold headSegments
    split <;> simp +contextual
  · exact hplain segment hsegment

theorem trimEnd_append (segments : List Text) :
    ∃ idle, segments = trimEnd segments ++ idle ∧ ∀ segment ∈ idle, isIdle segment = true := by
  refine ⟨(segments.reverse.takeWhile isIdle).reverse, ?_, ?_⟩
  · unfold trimEnd
    rw [← List.reverse_append, List.takeWhile_append_dropWhile, List.reverse_reverse]
  · intro segment hmem
    exact List.all_eq_true.mp List.all_takeWhile segment (List.mem_reverse.mp hmem)

theorem not_isIdle_of_trimEnd {segments before : List Text} {last : Text}
    (h : trimEnd segments = before ++ [last]) : isIdle last = false := by
  have hdrop : segments.reverse.dropWhile isIdle = last :: before.reverse := by
    have hreverse := congrArg List.reverse h
    unfold trimEnd at hreverse
    rwa [List.reverse_reverse, List.reverse_concat] at hreverse
  have hhead := List.head?_dropWhile_not isIdle segments.reverse
  rw [hdrop] at hhead
  simpa using hhead

theorem trimEnd_concat {segments : List Text} {last : Text} (h : isIdle last = false) :
    trimEnd (segments ++ [last]) = segments ++ [last] := by
  have hlast : ¬isIdle last = true := by
    rw [h]
    decide
  calc
    trimEnd (segments ++ [last]) = ((last :: segments.reverse).dropWhile (isIdle ·)).reverse := by
      rw [trimEnd, List.reverse_append, List.reverse_singleton, List.singleton_append]
    _ = (last :: segments.reverse).reverse := by rw [List.dropWhile_cons_of_neg hlast]
    _ = segments ++ [last] := by rw [List.reverse_cons, List.reverse_reverse]

theorem headAndBody_cases {path : Path} {head : Option Component} {body : List Text}
    (h : path.headAndBody = (head, body)) :
    (head = none ∨ head = some .root ∨ head = some .here) ∧
      ∀ segment ∈ body, segment ∈ Text.splitOn '/' path.spelling := by
  unfold headAndBody at h
  split at h
  · cases h
    exact ⟨Or.inl rfl, fun segment hmem ↦ nomatch hmem⟩
  · rename_i first rest hsplit
    rw [hsplit]
    split at h
    · cases h
      exact ⟨Or.inr (Or.inl rfl), fun segment hmem ↦ List.mem_cons_of_mem _ hmem⟩
    · split at h
      · cases h
        exact ⟨Or.inr (Or.inr rfl), fun segment hmem ↦ List.mem_cons_of_mem _ hmem⟩
      · cases h
        exact ⟨Or.inl rfl, fun segment hmem ↦ hmem⟩

theorem ne_nil_of_isIdle {segment : Text} (h : isIdle segment = false) : segment ≠ [] := by
  rintro rfl
  cases h

theorem spelling_ne_nil_of_splitOn {path : Path} {before : List Text} {last : Text}
    (hsegments : Text.splitOn '/' path.spelling = before ++ [last]) (hlast : last ≠ []) :
    path.spelling ≠ [] := by
  intro hnil
  have hend := congrArg List.getLast? hsegments
  rw [hnil, List.getLast?_concat] at hend
  exact hlast (Option.some.inj hend).symm

/-- The head of a path that ends in a name, and the segments between the two. -/
theorem headAndBody_of_splitOn {path : Path} {before : List Text} {name : Text}
    (hsegments : Text.splitOn '/' path.spelling = before ++ [name]) (hname : isIdle name = false) :
    ∃ head body, path.headAndBody = (head, body ++ [name]) ∧ before = headSegments head ++ body ∧
      (path.isAbsolute = true ↔ head = some .root) := by
  have hempty := ne_nil_of_isIdle hname
  have hdot : name ≠ ['.'] := by
    rintro rfl
    cases hname
  have habsolute := isAbsolute_iff (spelling_ne_nil_of_splitOn hsegments hempty)
  rw [hsegments] at habsolute
  unfold headAndBody
  rw [hsegments]
  cases before with
  | nil =>
    have hrelative : ¬ path.isAbsolute = true := by
      rw [habsolute]
      simpa using hempty
    exact ⟨none, [], by simp [hrelative, hdot], rfl, by simp [hrelative]⟩
  | cons first body =>
    by_cases hroot : path.isAbsolute = true
    · obtain rfl : first = [] := by simpa using habsolute.mp hroot
      exact ⟨some .root, body, by simp [hroot], rfl, by simp [hroot]⟩
    · by_cases hhere : first = ['.']
      · exact ⟨some .here, body, by simp [hroot, hhere], by simp [headSegments, hhere],
          by simp [hroot]⟩
      · exact ⟨none, first :: body, by simp [hroot, hhere], rfl, by simp [hroot]⟩

theorem fileName?_of_splitOn {path : Path} {before : List Text} {name : Text}
    (hsegments : Text.splitOn '/' path.spelling = before ++ [name]) (hname : isIdle name = false)
    (hup : name ≠ ['.', '.']) : path.fileName? = some name := by
  obtain ⟨head, body, hparts, _, _⟩ := headAndBody_of_splitOn hsegments hname
  have hcomponents : path.components =
      (head.toList ++ (body.filter (!isIdle ·)).map Component.ofSegment) ++ [.name name] := by
    unfold components
    rw [hparts]
    simp [List.filter_append, hname, Component.ofSegment, hup]
  unfold fileName?
  rw [hcomponents, List.getLast?_concat]

theorem not_mem_fileName? {path : Path} {name : Text} (h : path.fileName? = some name) :
    '/' ∉ name := by
  obtain ⟨head, body, hparts⟩ : ∃ head body, path.headAndBody = (head, body) := ⟨_, _, rfl⟩
  obtain ⟨hhead, hbody⟩ := headAndBody_cases hparts
  have hname : Component.name name ∈ path.components := by
    unfold fileName? at h
    split at h
    · rename_i last hlast
      cases h
      exact List.mem_of_getLast? hlast
    · cases h
  unfold components at hname
  rw [hparts] at hname
  rcases List.mem_append.mp hname with hfirst | hrest
  · rcases hhead with rfl | rfl | rfl <;> simp at hfirst
  · obtain ⟨segment, hsegment, hstep⟩ := List.mem_map.mp hrest
    unfold Component.ofSegment at hstep
    split at hstep
    · cases hstep
    · cases hstep
      exact Text.not_mem_of_mem_splitOn (hbody _ (List.mem_filter.mp hsegment).1)

theorem spelling_join {base : Path} {name : Text} (hrelative : (⟨name⟩ : Path).isAbsolute = false)
    (hempty : base.spelling ≠ []) (hend : base.spelling.getLast? ≠ some '/') :
    (base.join ⟨name⟩).spelling = base.spelling ++ '/' :: name := by
  unfold join
  rw [hrelative, if_neg (by decide), if_neg (by simp [hempty, hend])]

theorem exists_intercalate_concat (segments : List Text) (last : Text) :
    ∃ lead, ['/'].intercalate (segments ++ [last]) = lead ++ last := by
  induction segments with
  | nil => exact ⟨[], by simp [List.intercalate]⟩
  | cons first rest ih =>
    obtain ⟨lead, hlead⟩ := ih
    obtain ⟨next, more, hmore⟩ : ∃ next more, rest ++ [last] = next :: more :=
      List.exists_cons_of_ne_nil (by simp)
    refine ⟨first ++ '/' :: lead, ?_⟩
    rw [hmore] at hlead
    calc
      ['/'].intercalate (first :: rest ++ [last]) =
          first ++ '/' :: ['/'].intercalate (next :: more) := by
        rw [List.cons_append, hmore]
        simp [List.intercalate]
      _ = (first ++ '/' :: lead) ++ last := by rw [hlead]; simp

theorem spelling_assemble (head : Option Component) {segments : List Text} (hne : segments ≠ []) :
    (assemble head segments).spelling = ['/'].intercalate (headSegments head ++ segments) := by
  obtain ⟨first, rest, rfl⟩ := List.exists_cons_of_ne_nil hne
  cases head with
  | none => rfl
  | some head => cases head <;> simp [assemble, headSegments, List.intercalate]

/-- A name put after a path without idle segments at its end is a segment of its own. -/
theorem splitOn_join_assemble (head : Option Component) {segments : List Text} {name : Text}
    (hplain : ∀ segment ∈ segments, '/' ∉ segment)
    (hlast : ∀ before last, segments = before ++ [last] → isIdle last = false)
    (hname : '/' ∉ name) (hempty : name ≠ []) :
    Text.splitOn '/' ((assemble head segments).join ⟨name⟩).spelling =
      headSegments head ++ (segments ++ [name]) := by
  have hrelative : (⟨name⟩ : Path).isAbsolute = false := by
    obtain ⟨c, rest, rfl⟩ := List.exists_cons_of_ne_nil hempty
    have hc : c ≠ '/' := fun heq ↦ hname (heq ▸ List.mem_cons_self)
    simp [isAbsolute, hc]
  have hone : Text.splitOn '/' name = [name] := Text.splitOn_of_not_mem hname
  rcases List.eq_nil_or_concat' segments with rfl | ⟨before, last, hsegments⟩
  · cases head with
    | none => simpa [assemble, join, hrelative, headSegments, List.intercalate] using hone
    | some head =>
      cases head <;>
        simp [assemble, join, hrelative, headSegments, List.intercalate, Text.splitOn, hone]
  · have hidle := hlast before last hsegments
    have hlastEmpty := ne_nil_of_isIdle hidle
    have hne : segments ≠ [] := by simp [hsegments]
    have hspelling := spelling_assemble head hne
    obtain ⟨lead, hlead⟩ := exists_intercalate_concat (headSegments head ++ before) last
    rw [List.append_assoc, ← hsegments, ← hspelling] at hlead
    have hend : (assemble head segments).spelling.getLast? ≠ some '/' := by
      intro hslash
      rw [hlead, List.getLast?_append, List.getLast?_eq_some_getLast hlastEmpty] at hslash
      have hslashLast : last.getLast hlastEmpty = '/' := Option.some.inj hslash
      exact hplain last (by simp [hsegments]) (hslashLast ▸ List.getLast_mem hlastEmpty)
    calc
      Text.splitOn '/' ((assemble head segments).join ⟨name⟩).spelling =
          Text.splitOn '/' (['/'].intercalate (headSegments head ++ segments) ++ '/' :: name) := by
        rw [spelling_join hrelative (by simp [hlead, hlastEmpty]) hend, hspelling]
      _ = headSegments head ++ segments ++ Text.splitOn '/' name :=
        Text.splitOn_intercalate_append (by simp [hsegments]) (not_mem_headSegments_append hplain)
      _ = headSegments head ++ (segments ++ [name]) := by rw [hone, List.append_assoc]

/-- Another name at the end, and idle segments left out before it, do not make a path absolute. -/
theorem head?_of_trimEnd {path : Path} {head : Option Component} {body : List Text} {name other : Text}
    (hsegments : Text.splitOn '/' path.spelling = headSegments head ++ body ++ [name])
    (hspelling : path.spelling ≠ []) (habsolute : path.isAbsolute = true ↔ head = some .root)
    (hempty : other ≠ []) :
    (headSegments head ++ (trimEnd body ++ [other])).head? = some [] ↔ head = some .root := by
  rw [isAbsolute_iff hspelling, hsegments] at habsolute
  obtain ⟨idle, hbody, _⟩ := trimEnd_append body
  cases hhead : headSegments head with
  | nil =>
    cases htrim : trimEnd body with
    | nil =>
      have hrelative : head ≠ some .root := by
        rintro rfl
        cases hhead
      simpa [hrelative] using hempty
    | cons first rest =>
      rw [← habsolute, hhead, hbody, htrim]
      rfl
  | cons first rest =>
    rw [← habsolute, hhead]
    rfl

theorem parent?_of_trimEnd {path : Path} {head : Option Component} {body front : List Text}
    {last : Text} (hparts : path.headAndBody = (head, body)) (hbody : trimEnd body = front ++ [last]) :
    path.parent? = some (assemble head (trimEnd front)) := by
  unfold parent?
  rw [hparts]
  dsimp only
  rw [hbody]
  split
  · rename_i hnil
    simp at hnil
  · rename_i hnil _
    simp at hnil
  · rw [List.dropLast_concat]

/-- The path with another name at the end has the same segments before it, apart from idle ones. -/
theorem splitOn_withFileName {path : Path} {before : List Text} {name other : Text}
    (hsegments : Text.splitOn '/' path.spelling = before ++ [name])
    (hname : FileSystem.IsName name) (hother : '/' ∉ other) (hempty : other ≠ []) :
    ∃ segments idle, before = segments ++ idle ∧ (∀ segment ∈ idle, isIdle segment = true) ∧
      Text.splitOn '/' (path.withFileName other).spelling = segments ++ [other] ∧
      (path.withFileName other).isAbsolute = path.isAbsolute := by
  obtain ⟨head, body, hparts, hbefore, habsolute⟩ := headAndBody_of_splitOn hsegments hname.1
  obtain ⟨idle, hbody, hidle⟩ := trimEnd_append body
  have hparent := parent?_of_trimEnd hparts (trimEnd_concat hname.1)
  have hwith : path.withFileName other = (assemble head (trimEnd body)).join ⟨other⟩ := by
    unfold withFileName
    rw [fileName?_of_splitOn hsegments hname.1 hname.2, hparent]
  have hplain : ∀ segment ∈ trimEnd body, '/' ∉ segment := by
    intro segment hmem
    have hbefore' : segment ∈ before := by
      rw [hbefore, hbody]
      simp [hmem]
    exact Text.not_mem_of_mem_splitOn (hsegments ▸ List.mem_append_left [name] hbefore')
  have hsplit := splitOn_join_assemble head hplain
    (fun before last h ↦ not_isIdle_of_trimEnd h) hother hempty
  rw [← hwith, ← List.append_assoc] at hsplit
  have hspelling := spelling_ne_nil_of_splitOn hsegments (ne_nil_of_isIdle hname.1)
  have hspelling' := spelling_ne_nil_of_splitOn hsplit hempty
  refine ⟨headSegments head ++ trimEnd body, idle, ?_, hidle, hsplit, ?_⟩
  · rw [hbefore, List.append_assoc, ← hbody]
  · rw [hbefore] at hsegments
    rw [Bool.eq_iff_iff, isAbsolute_iff hspelling', hsplit, habsolute, List.append_assoc]
    exact head?_of_trimEnd hsegments hspelling habsolute hempty

end Path

end DefCatalog
