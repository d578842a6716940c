import DefCatalog.Proofs.Files.Standing
import DefCatalog.Proofs.Text.Order

/-!
# What a path depends on

To follow a path is to ask what stands at one location after the other. If the same stands at all
the locations that are asked about, then the path leads to the same place, whatever else has
changed.
-/

namespace DefCatalog.FileSystem

variable {files before after : FileSystem} {links : Nat} {place location : Location}
  {segment name : Text} {segments rest : List Text} {base path : Path} {bytes : Bytes}
  {directory : Location}

/-- The locations that are asked about on the way from a place, up to the first link that is
followed, from where `follow` goes on. The end of the way is among them. -/
def askedWith (files : FileSystem) (follow : Location → List Text → List Location)
    (place : Location) : List Text → List Location
  | [] => [place]
  | segment :: rest =>
    place ::
      if !files.isDirectoryAt place then []
      else if Path.isIdle segment then files.askedWith follow place rest
      else if segment = ['.', '.'] then files.askedWith follow place.tail rest
      else match files.contentAt? (segment :: place) with
        | none => [segment :: place]
        | some (.link target) =>
          (segment :: place) :: follow (origin target place) (Text.splitOn '/' target.spelling ++ rest)
        | some _ => files.askedWith follow (segment :: place) rest

/-- The locations that are asked about on the way from a place, if no more than the given number of
links are followed. -/
def askedFrom (files : FileSystem) : Nat → Location → List Text → List Location
  | 0 => files.askedWith fun _ _ ↦ []
  | links + 1 => files.askedWith (files.askedFrom links)

/-- The locations that are asked about when a path is followed. -/
def asked (files : FileSystem) (path : Path) : List Location :=
  files.askedFrom maxLinks (origin path files.working) (Text.splitOn '/' path.spelling)

theorem askedFrom_nil (files : FileSystem) (links : Nat) (place : Location) :
    files.askedFrom links place [] = [place] := by
  cases links <;> rfl

theorem askedFrom_cons (files : FileSystem) (links : Nat) (place : Location) (segment : Text)
    (rest : List Text) :
    files.askedFrom links place (segment :: rest) =
      place ::
        if !files.isDirectoryAt place then []
        else if Path.isIdle segment then files.askedFrom links place rest
        else if segment = ['.', '.'] then files.askedFrom links place.tail rest
        else match files.contentAt? (segment :: place) with
          | none => [segment :: place]
          | some (.link target) =>
            (segment :: place) ::
              match links with
              | 0 => []
              | links + 1 =>
                files.askedFrom links (origin target place)
                  (Text.splitOn '/' target.spelling ++ rest)
          | some _ => files.askedFrom links (segment :: place) rest := by
  cases links <;> simp only [askedFrom, askedWith]

theorem mem_askedFrom_self (files : FileSystem) (links : Nat) (place : Location)
    (segments : List Text) : place ∈ files.askedFrom links place segments := by
  cases segments with
  | nil => simp [askedFrom_nil]
  | cons segment rest =>
    rw [askedFrom_cons]
    exact List.mem_cons_self

theorem askedFrom_idle (hplace : files.isDirectoryAt place = true)
    (h : Path.isIdle segment = true) :
    files.askedFrom links place (segment :: rest) = place :: files.askedFrom links place rest := by
  rw [askedFrom_cons, hplace, h]
  rfl

theorem askedFrom_up (hplace : files.isDirectoryAt place = true) :
    files.askedFrom links place (['.', '.'] :: rest) =
      place :: files.askedFrom links place.tail rest := by
  rw [askedFrom_cons, hplace]
  rfl

theorem askedFrom_name (hplace : files.isDirectoryAt place = true) (h : IsName segment)
    {content : Content} (hcontent : files.contentAt? (segment :: place) = some content)
    (hlink : ∀ target, content ≠ .link target) :
    files.askedFrom links place (segment :: rest) =
      place :: files.askedFrom links (segment :: place) rest := by
  rw [askedFrom_cons, hplace, h.1, if_neg (by decide), if_neg (by decide), if_neg h.2, hcontent]
  cases content with
  | link target => exact absurd rfl (hlink target)
  | directory => rfl
  | file bytes => rfl

theorem askedFrom_link (hplace : files.isDirectoryAt place = true) (h : IsName segment)
    {target : Path} (hcontent : files.contentAt? (segment :: place) = some (.link target)) :
    files.askedFrom (links + 1) place (segment :: rest) =
      place :: (segment :: place) ::
        files.askedFrom links (origin target place) (Text.splitOn '/' target.spelling ++ rest) := by
  rw [askedFrom_cons, hplace, h.1, if_neg (by decide), if_neg (by decide), if_neg h.2, hcontent]

theorem isDirectoryAt_congr (h : after.contentAt? location = before.contentAt? location) :
    after.isDirectoryAt location = before.isDirectoryAt location := by
  unfold isDirectoryAt
  rw [h]

/-- A way on which the same stands at each location leads to the same place. -/
theorem walk_congr (h : ∀ location ∈ before.askedFrom links place segments,
    after.contentAt? location = before.contentAt? location) :
    after.walk true links place segments = before.walk true links place segments := by
  induction links, place, segments using walkInduction with
  | nil links place => rw [walk_nil, walk_nil]
  | cons links place segment rest ih ihlinks =>
    have hplace := isDirectoryAt_congr (h place (mem_askedFrom_self _ _ _ _))
    rw [askedFrom_cons, List.forall_mem_cons] at h
    replace h := h.2
    rw [walk_cons, walk_cons, hplace]
    split
    · rfl
    · rename_i hdirectory
      rw [if_neg hdirectory] at h
      split
      · rename_i hidle
        rw [if_pos hidle] at h
        exact ih place h
      · rename_i hidle
        rw [if_neg hidle] at h
        split
        · rename_i hup
          rw [if_pos hup] at h
          exact ih place.tail h
        · rename_i hup
          rw [if_neg hup] at h
          cases hcontent : before.contentAt? (segment :: place) with
          | none =>
            rw [hcontent] at h
            rw [h _ (List.mem_singleton.mpr rfl), hcontent]
          | some content =>
            rw [hcontent] at h
            cases content with
            | link target =>
              rw [List.forall_mem_cons] at h
              rw [h.1, hcontent]
              dsimp only
              split
              · rfl
              · cases links with
                | zero => rfl
                | succ fewer => exact ihlinks fewer (Nat.lt_succ_self fewer) _ _ h.2
            | file bytes =>
              rw [h _ (mem_askedFrom_self _ _ _ _), hcontent]
              exact ih _ h
            | directory =>
              rw [h _ (mem_askedFrom_self _ _ _ _), hcontent]
              exact ih _ h

theorem mem_askedFrom_of_walk {left : Nat}
    (h : files.walk true links place segments = .ok (location, left)) :
    location ∈ files.askedFrom links place segments := by
  induction links, place, segments using walkInduction with
  | nil links place =>
    rw [walk_nil] at h
    cases h
    exact mem_askedFrom_self _ _ _ _
  | cons links place segment rest ih ihlinks =>
    obtain ⟨hplace, ⟨hidle, hrest⟩ | ⟨rfl, hrest⟩ | ⟨content, hname, hcontent, hlink, hrest⟩ |
      ⟨target, fewer, hname, hcontent, rfl, hrest⟩⟩ := walk_cons_cases h
    · rw [askedFrom_idle hplace hidle]
      exact List.mem_cons_of_mem _ (ih place hrest)
    · rw [askedFrom_up hplace]
      exact List.mem_cons_of_mem _ (ih place.tail hrest)
    · rw [askedFrom_name hplace hname hcontent hlink]
      exact List.mem_cons_of_mem _ (ih _ hrest)
    · rw [askedFrom_link hplace hname hcontent]
      exact List.mem_cons_of_mem _ (List.mem_cons_of_mem _
        (ihlinks fewer (Nat.lt_succ_self fewer) _ _ hrest))

/-- Before its end, a way passes directories and links only. -/
theorem not_isFree_of_mem_askedFrom {left : Nat} {other : Location}
    (h : files.walk true links place segments = .ok (location, left))
    (hother : other ∈ files.askedFrom links place segments) :
    other = location ∨ ¬files.IsFree other := by
  have hpassed {passed : Location} {content : Content}
      (hcontent : files.contentAt? passed = some content) (hplain : ∀ bytes, content ≠ .file bytes) :
      ¬files.IsFree passed :=
    fun hfree ↦ hfree.ne hcontent hplain rfl
  induction links, place, segments using walkInduction with
  | nil links place =>
    rw [walk_nil] at h
    cases h
    rw [askedFrom_nil] at hother
    exact Or.inl (List.mem_singleton.mp hother)
  | cons links place segment rest ih ihlinks =>
    obtain ⟨hplace, hcases⟩ := walk_cons_cases h
    have hfirst : ¬files.IsFree place :=
      hpassed (isDirectoryAt_iff.mp hplace) fun _ heq ↦ Content.noConfusion heq
    rcases hcases with ⟨hidle, hrest⟩ | ⟨rfl, hrest⟩ | ⟨content, hname, hcontent, hlink, hrest⟩ |
      ⟨target, fewer, hname, hcontent, rfl, hrest⟩
    · rw [askedFrom_idle hplace hidle] at hother
      rcases List.mem_cons.mp hother with rfl | hother
      · exact Or.inr hfirst
      · exact ih place hrest hother
    · rw [askedFrom_up hplace] at hother
      rcases List.mem_cons.mp hother with rfl | hother
      · exact Or.inr hfirst
      · exact ih place.tail hrest hother
    · rw [askedFrom_name hplace hname hcontent hlink] at hother
      rcases List.mem_cons.mp hother with rfl | hother
      · exact Or.inr hfirst
      · exact ih _ hrest hother
    · rw [askedFrom_link hplace hname hcontent, List.mem_cons, List.mem_cons] at hother
      rcases hother with rfl | rfl | hother
      · exact Or.inr hfirst
      · exact Or.inr (hpassed hcontent fun _ heq ↦ Content.noConfusion heq)
      · exact ihlinks fewer (Nat.lt_succ_self fewer) _ _ hrest hother

/-- On a way that goes on, one asks about locations on the first part or on the second one. -/
theorem mem_askedFrom_append {left : Nat} {other : Location} {front : List Text}
    (h : files.walk true links place front = .ok (location, left))
    (hother : other ∈ files.askedFrom links place (front ++ rest)) :
    other ∈ files.askedFrom links place front ∨ other ∈ files.askedFrom left location rest := by
  induction links, place, front using walkInduction with
  | nil links place =>
    rw [walk_nil] at h
    cases h
    exact Or.inr hother
  | cons links place segment front ih ihlinks =>
    rw [List.cons_append] at hother
    obtain ⟨hplace, ⟨hidle, hrest⟩ | ⟨rfl, hrest⟩ | ⟨content, hname, hcontent, hlink, hrest⟩ |
      ⟨target, fewer, hname, hcontent, rfl, hrest⟩⟩ := walk_cons_cases h
    · rw [askedFrom_idle hplace hidle, List.mem_cons] at hother ⊢
      rw [or_assoc]
      exact hother.imp_right (ih place hrest)
    · rw [askedFrom_up hplace, List.mem_cons] at hother ⊢
      rw [or_assoc]
      exact hother.imp_right (ih place.tail hrest)
    · rw [askedFrom_name hplace hname hcontent hlink, List.mem_cons] at hother ⊢
      rw [or_assoc]
      exact hother.imp_right (ih _ hrest)
    · rw [askedFrom_link hplace hname hcontent, List.mem_cons, List.mem_cons] at hother ⊢
      rw [or_assoc, or_assoc]
      rw [← List.append_assoc] at hother
      exact hother.imp_right (Or.imp_right (ihlinks fewer (Nat.lt_succ_self fewer) _ _ hrest))

theorem eq_of_mem_askedFrom_of_idle {other : Location}
    (hidle : ∀ segment ∈ segments, Path.isIdle segment = true)
    (hother : other ∈ files.askedFrom links place segments) : other = place := by
  induction segments with
  | nil =>
    rw [askedFrom_nil] at hother
    exact List.mem_singleton.mp hother
  | cons segment rest ih =>
    obtain ⟨hsegment, hrest⟩ := List.forall_mem_cons.mp hidle
    cases hplace : files.isDirectoryAt place with
    | true =>
      rw [askedFrom_idle hplace hsegment] at hother
      exact (List.mem_cons.mp hother).elim id (ih hrest)
    | false =>
      rw [askedFrom_cons, hplace] at hother
      exact List.mem_singleton.mp hother

/-- At an entry that is no link, one asks about the directory and the entry. -/
theorem eq_or_eq_of_mem_askedFrom {other : Location} (hname : IsName name)
    (hidle : ∀ segment ∈ rest, Path.isIdle segment = true)
    (hlink : ∀ target, files.contentAt? (name :: place) ≠ some (.link target))
    (hother : other ∈ files.askedFrom links place (name :: rest)) :
    other = place ∨ other = name :: place := by
  rw [askedFrom_cons] at hother
  rcases List.mem_cons.mp hother with rfl | hother
  · exact Or.inl rfl
  split at hother
  · cases hother
  rw [if_neg (by simp [hname.1]), if_neg hname.2] at hother
  right
  cases hcontent : files.contentAt? (name :: place) with
  | none =>
    rw [hcontent] at hother
    exact List.mem_singleton.mp hother
  | some content =>
    rw [hcontent] at hother
    cases content with
    | link target => exact absurd hcontent (hlink target)
    | file bytes => exact eq_of_mem_askedFrom_of_idle hidle hother
    | directory => exact eq_of_mem_askedFrom_of_idle hidle hother

/-- On the way to an entry that is no link, nothing free is asked about but the directory and the
entry. -/
theorem asked_join (hbase : files.locate base = .ok directory) (hname : IsEntryName name)
    (hlink : ∀ target, files.contentAt? (name :: directory) ≠ some (.link target))
    {other : Location} (hother : other ∈ files.asked (base.join ⟨name⟩)) :
    other = directory ∨ other = name :: directory ∨ ¬files.IsFree other := by
  obtain ⟨segments, left, hsegments, hfront⟩ := exists_front_of_join hbase hname.2
  unfold asked at hother
  rw [hsegments] at hother
  rcases mem_askedFrom_append hfront hother with hfirst | hlast
  · exact (not_isFree_of_mem_askedFrom hfront hfirst).imp_right Or.inr
  · have hidle : ∀ segment ∈ ([] : List Text), Path.isIdle segment = true := fun _ ↦ nofun
    have hends := eq_or_eq_of_mem_askedFrom hname.1 hidle hlink hlast
    exact hends.imp_right Or.inl

/-- Whether the same stands at all locations that are asked about when a path is followed. -/
def SameAlong (after before : FileSystem) (path : Path) : Prop :=
  ∀ location ∈ before.asked path, after.get? location = before.get? location

theorem SameAlong.locate_eq (h : SameAlong after before path)
    (hworking : after.working = before.working) : after.locate path = before.locate path := by
  unfold locate locateWith
  rw [hworking, walk_congr fun location hmem ↦ contentAt?_congr (h location hmem)]

theorem mem_asked_of_locate (h : files.locate path = .ok location) :
    location ∈ files.asked path := by
  obtain ⟨left, hwalk⟩ := locate_eq_ok h
  exact mem_askedFrom_of_walk hwalk

theorem SameAlong.stat_eq (h : SameAlong after before path)
    (hworking : after.working = before.working) : after.stat path = before.stat path := by
  unfold stat
  rw [h.locate_eq hworking]
  cases hlocate : before.locate path with
  | error reason => rfl
  | ok location =>
    dsimp only
    rw [h location (mem_asked_of_locate hlocate)]

theorem SameAlong.readFile_eq (h : SameAlong after before path)
    (hworking : after.working = before.working) : after.readFile path = before.readFile path := by
  unfold readFile
  rw [h.stat_eq hworking]

theorem SameAlong.pathExists_eq (h : SameAlong after before path)
    (hworking : after.working = before.working) :
    after.pathExists path = before.pathExists path := by
  unfold pathExists
  rw [h.stat_eq hworking]

theorem SameAlong.isDirectory_eq (h : SameAlong after before path)
    (hworking : after.working = before.working) :
    after.isDirectory path = before.isDirectory path := by
  unfold isDirectory
  rw [h.stat_eq hworking]

theorem SameAlong.locateDirectory_eq (h : SameAlong after before path)
    (hworking : after.working = before.working) :
    after.locateDirectory path = before.locateDirectory path := by
  unfold locateDirectory
  rw [h.locate_eq hworking]
  cases hlocate : before.locate path with
  | error reason => rfl
  | ok location =>
    dsimp only
    rw [isDirectoryAt_congr (contentAt?_congr (h location (mem_asked_of_locate hlocate)))]

theorem sortedNames_congr (hafter : after.WellFormed) (hbefore : before.WellFormed)
    (h : ∀ name, after.get? (name :: location) = before.get? (name :: location)) :
    after.sortedNames location = before.sortedNames location := by
  have hmem (name : Text) :
      name ∈ after.sortedNames location ↔ name ∈ before.sortedNames location := by
    rw [mem_sortedNames_iff, mem_sortedNames_iff, contentAt?_congr (h name)]
  have hperm : (after.sortedNames location).Perm (before.sortedNames location) :=
    (List.perm_ext_iff_of_nodup (hafter.nodup_sortedNames location)
      (hbefore.nodup_sortedNames location)).mpr hmem
  apply Text.mergeSort_congr
  exact (List.mergeSort_perm _ _).symm.trans (hperm.trans (List.mergeSort_perm _ _))

end DefCatalog.FileSystem
