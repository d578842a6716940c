import DefCatalog.Proofs.Files.Components
import DefCatalog.Proofs.Scan.Agreement
import DefCatalog.Proofs.Scan.Journey

/-!
# Which directories are open

A tour never enters a directory that is open. A descent holds only links against the open
directories, so a link to a directory above an open one lets it come down to the open one again,
from directory to subdirectory, as long as the paths do not get too long. Nothing else does: without
such a link, the open directories of a descent are distinct too.
-/

namespace DefCatalog

open Relation

variable {files : FileSystem} {root : Path} {route : Route} {name : Text}

namespace FileSystem

variable {trail stops next : List Stop} {here first top : Stop}

/-! ## Links that lead up -/

/-- Whether names lead down from a path by paths of directories, none of which is too long. -/
def GoesDown (files : FileSystem) (path : Path) (names : List Text) : Prop :=
  ∀ way, way <+: names → way ≠ [] → ∃ location, files.locateDirectory (path.below way) = .ok location

theorem goesDown_nil (files : FileSystem) (path : Path) : files.GoesDown path [] :=
  fun _ hway hne ↦ absurd (List.prefix_nil.mp hway) hne

theorem GoesDown.cons {path : Path} {names : List Text} {found : Location}
    (hpath : files.locateDirectory (path.join ⟨name⟩) = .ok found)
    (h : files.GoesDown (path.join ⟨name⟩) names) : files.GoesDown path (name :: names) := by
  intro way hway hne
  obtain ⟨first, rest, rfl⟩ := List.exists_cons_of_ne_nil hne
  obtain ⟨rfl, hrest⟩ := List.cons_prefix_cons.mp hway
  by_cases hnil : rest = []
  · rw [hnil]
    exact ⟨found, hpath⟩
  · exact h rest hrest hnil

/-- Whether an open directory lies below another one and is reached from there by names that lead
down. -/
def LiesUnder (files : FileSystem) (upper : Stop) (lower : Location) : Prop :=
  ∃ names : List Text, names.reverse ++ upper.location = lower ∧ files.GoesDown upper.path names

/-- Whether an entry of the innermost open directory is a link that is followed, and leads to a
directory above an open one, from where names lead down to it. -/
def LeadsUp (files : FileSystem) (trail : List Stop) (here : Stop) (name : Text) : Prop :=
  ∃ path target, files.contentAt? (name :: here.location) = some (.link path) ∧
    files.locate (here.path.join ⟨name⟩) = .ok target ∧ files.isDirectoryAt target = true ∧
    openAt? (here :: trail) target = none ∧
    ∃ stop ∈ here :: trail, files.LiesUnder ⟨here.path.join ⟨name⟩, target⟩ stop.location

theorem LeadsUp.name_mem (h : files.LeadsUp trail here name) :
    name ∈ files.sortedNames here.location := by
  obtain ⟨path, target, hentry, _⟩ := h
  exact mem_sortedNames_iff.mpr ⟨_, hentry⟩

/-- Whether no directory was opened above one that was open and lies under it. -/
def OpensDownward (files : FileSystem) (stops : List Stop) : Prop :=
  stops.Pairwise fun inner outer ↦ ¬files.LiesUnder inner outer.location

theorem OpensDownward.nodup (h : files.OpensDownward stops) :
    (stops.map Stop.location).Nodup := by
  rw [List.Nodup, List.pairwise_map]
  apply List.Pairwise.imp _ h
  intro inner outer hunder heq
  exact hunder ⟨[], heq, files.goesDown_nil _⟩

/-- A subdirectory of the innermost directory is above an open one only if the innermost directory
is. -/
theorem OpensDownward.opens (h : files.OpensDownward stops) (hopens : files.Opens stops next)
    (hup : ∀ here trail name, stops = here :: trail → ¬files.LeadsUp trail here name) :
    files.OpensDownward next := by
  cases hopens with
  | @folder trail here name found hentry hpath =>
    refine List.pairwise_cons.mpr ⟨fun outer houter hunder ↦ ?_, h⟩
    obtain ⟨names, hlocation, hdown⟩ := hunder
    rcases List.mem_cons.mp houter with rfl | htrail
    · have hlength := congrArg List.length hlocation
      rw [List.length_append, List.length_cons] at hlength
      omega
    · refine (List.pairwise_cons.mp h).1 outer htrail ⟨name :: names, ?_, hdown.cons hpath⟩
      rw [List.reverse_cons, List.append_assoc]
      exact hlocation
  | @link trail here name path target hentry hpath htarget hopen =>
    refine List.pairwise_cons.mpr ⟨fun outer houter hunder ↦ ?_, h⟩
    exact hup here trail name rfl
      ⟨path, target, hentry, hpath, htarget, hopen, outer, houter, hunder⟩

/-- From an open directory, those that names lead down to are opened, one from the other. -/
theorem exists_opens_below (hfiles : files.IsTree) (trail : List Stop) (top : Stop)
    {names : List Text} (hdown : files.GoesDown top.path names)
    (hdirectory : files.isDirectoryAt (names.reverse ++ top.location) = true) :
    ∃ outer, ReflTransGen files.Opens (top :: trail)
      (⟨top.path.below names, names.reverse ++ top.location⟩ :: outer) := by
  induction names using List.reverseRecOn with
  | nil => exact ⟨trail, .refl⟩
  | append_singleton names name ih =>
    have hbelow : top.path.below (names ++ [name]) = (top.path.below names).join ⟨name⟩ :=
      List.foldl_concat _ _ _ _
    have hlocation : (names ++ [name]).reverse ++ top.location =
        name :: (names.reverse ++ top.location) := by
      rw [List.reverse_concat, List.cons_append]
    rw [hlocation] at hdirectory
    have hentry := isDirectoryAt_iff.mp hdirectory
    obtain ⟨outer, hrun⟩ := ih (fun way hway ↦ hdown way (hway.trans (List.prefix_append _ _)))
      (isTree_iff.mp hfiles _ _ _ hentry)
    obtain ⟨found, hpath⟩ := hdown _ (List.prefix_refl _) (by simp)
    rw [hbelow] at hpath
    rw [hbelow, hlocation]
    exact ⟨_, hrun.tail (.folder hentry hpath)⟩

theorem isDirectoryAt_of_opens (hfirst : files.isDirectoryAt first.location = true)
    (h : ReflTransGen files.Opens [first] stops) :
    ∀ stop ∈ stops, files.isDirectoryAt stop.location = true := by
  induction h with
  | refl => exact List.forall_mem_singleton.mpr hfirst
  | tail _ hopens ih =>
    cases hopens with
    | folder hentry => exact List.forall_mem_cons.mpr ⟨isDirectoryAt_iff.mpr hentry, ih⟩
    | link _ _ htarget _ => exact List.forall_mem_cons.mpr ⟨htarget, ih⟩

/-- From a directory that an open one lies under, the open one is opened again. -/
theorem not_opensOnce_of_leadsUp (hfiles : files.IsTree)
    (hfirst : files.isDirectoryAt first.location = true)
    (hrun : ReflTransGen files.Opens [first] (here :: trail))
    (hup : files.LeadsUp trail here name) : ¬files.OpensOnce [first] := by
  intro honce
  obtain ⟨path, target, hentry, hpath, htarget, hopen, stop, hstop, names, hunder, hdown⟩ := hup
  have hdirectory := isDirectoryAt_of_opens hfirst hrun stop hstop
  rw [← hunder] at hdirectory
  obtain ⟨outer, hopens⟩ := exists_opens_below hfiles (here :: trail) _ hdown hdirectory
  have hagain : names.reverse ++ target ∈ outer.map Stop.location := by
    rw [hunder]
    apply List.mem_map_of_mem
    -- all that was open when the link was followed still is
    cases List.suffix_cons_iff.mp (suffix_of_opens hopens) with
    | inl heq =>
      rw [← (List.cons.inj heq).2]
      exact hstop
    | inr hsuffix => exact hsuffix.subset (List.mem_cons_of_mem _ hstop)
  have hnodup := honce ((hrun.tail (.link hentry hpath htarget hopen)).trans hopens)
  rw [List.map_cons, List.nodup_cons] at hnodup
  exact hnodup.1 hagain

/-- The directories that are open are distinct all the time if and only if no link leads up. -/
theorem opensOnce_iff (hfiles : files.IsTree) (hfirst : files.isDirectoryAt first.location = true) :
    files.OpensOnce [first] ↔ ∀ here trail name,
      ReflTransGen files.Opens [first] (here :: trail) → ¬files.LeadsUp trail here name := by
  constructor
  · intro honce here trail name hrun hup
    exact not_opensOnce_of_leadsUp hfiles hfirst hrun hup honce
  · intro hup next hrun
    have hdownward : files.OpensDownward next := by
      induction hrun with
      | refl => exact List.pairwise_singleton _ _
      | tail hrun hopens ih =>
        apply ih.opens hopens
        rintro here trail name rfl
        exact hup here trail name hrun
    exact hdownward.nodup

end FileSystem

namespace Visit

/-- A directory that is opened is entered in a visit to an entry. -/
theorem exists_onDescent_of_opens {trail : List Stop} {here child : Stop} (root : Path)
    (h : files.Opens (here :: trail) (child :: here :: trail)) :
    ∃ name ∈ files.sortedNames here.location,
      onDescent files root trail here name = entered child := by
  cases h with
  | @folder _ _ name _ hentry hpath =>
    refine ⟨name, FileSystem.mem_sortedNames_iff.mpr ⟨_, hentry⟩, ?_⟩
    unfold onDescent
    simp only [hentry, hpath]
  | @link _ _ name path target hentry hpath htarget hopen =>
    refine ⟨name, FileSystem.mem_sortedNames_iff.mpr ⟨_, hentry⟩, ?_⟩
    unfold onDescent
    simp only [hentry, hpath, FileSystem.isDirectoryAt_iff.mp htarget, hopen]

end Visit

namespace Journey

variable {journey : Journey} {trail : List Stop} {here first : Stop}

/-- The open directories, the innermost first. -/
def directories (journey : Journey) : List Location :=
  journey.stops.map Stop.location

/-- Whether the open directories are among those that have been entered, and none was entered
twice. -/
structure EntersOnce (journey : Journey) : Prop where
  sublist : journey.directories.Sublist journey.listed
  nodup_listed : journey.listed.Nodup

theorem EntersOnce.nodup (h : journey.EntersOnce) : journey.directories.Nodup :=
  h.nodup_listed.sublist h.sublist

theorem entersOnce_start (files : FileSystem) (root : Path) :
    (start files root .tour).EntersOnce := by
  unfold start Visit.ofTourRoot
  cases files.locateDirectory root with
  | error reason => exact ⟨List.Sublist.refl [], List.nodup_nil⟩
  | ok location => exact ⟨List.Sublist.refl [location], List.nodup_singleton location⟩

theorem EntersOnce.next (h : journey.EntersOnce) (files : FileSystem) (root : Path) :
    (next files root .tour journey).EntersOnce := by
  obtain ⟨trail, listed, met⟩ := journey
  match trail with
  | [] => exact h
  | ⟨here, []⟩ :: outer => exact ⟨(List.sublist_cons_self _ _).trans h.sublist, h.nodup_listed⟩
  | ⟨here, name :: left⟩ :: outer =>
    rw [next_visit]
    unfold visit
    obtain ⟨met', hpassed, _⟩ | ⟨target, hentered, _, hnew, _⟩ :=
      Visit.onTour_cases files listed (here.path.join ⟨name⟩)
    · rw [hpassed]
      exact ⟨h.sublist, h.nodup_listed⟩
    · rw [hentered]
      exact ⟨h.sublist.cons_cons target, List.nodup_cons.mpr ⟨hnew, h.nodup_listed⟩⟩

theorem entersOnce_after (files : FileSystem) (root : Path) (steps : Nat) :
    (after files root .tour steps).EntersOnce := by
  induction steps with
  | zero => exact entersOnce_start files root
  | succ steps ih => exact ih.next files root

/-- Whether the open directories of a journey, if there are any, were opened one from the other. -/
def HasOpened (files : FileSystem) (first : Stop) (journey : Journey) : Prop :=
  journey.stops = [] ∨ ReflTransGen files.Opens [first] journey.stops

theorem HasOpened.next (h : journey.HasOpened files first) (root : Path) :
    (next files root .descent journey).HasOpened files first := by
  obtain ⟨trail, listed, met⟩ := journey
  match trail with
  | [] => exact Or.inl rfl
  | ⟨here, []⟩ :: outer =>
    -- what is left was open before the innermost directory was opened
    have hrun := h.resolve_left (List.cons_ne_nil _ _)
    generalize hstops : stops ⟨⟨here, []⟩ :: outer, listed, met⟩ = stops at hrun
    cases hrun with
    | refl => exact Or.inl (List.cons.inj hstops).2
    | tail hbefore hopens =>
      obtain ⟨_, _, child, _, rfl⟩ := hopens.exists_child
      have houter : outer.map OpenDirectory.stop = _ := (List.cons.inj hstops).2
      rw [← houter] at hbefore
      exact Or.inr hbefore
  | ⟨here, name :: left⟩ :: outer =>
    have hrun := h.resolve_left (List.cons_ne_nil _ _)
    rw [next_visit]
    unfold visit
    cases Visit.onDescent_cases files root (outer.map OpenDirectory.stop) here name with
    | inl hpassed =>
      unfold stops
      rw [hpassed]
      exact Or.inr hrun
    | inr hentered =>
      obtain ⟨child, hchild, hopens, _⟩ := hentered
      unfold stops
      rw [hchild]
      exact Or.inr (hrun.tail hopens)

/-- The entries of the innermost directory are visited up to any of them. -/
theorem entries_become (files : FileSystem) (root : Path) (here : Stop) (outer : List OpenDirectory)
    (front back : List Text) (listed : List Location) (met : List Encounter) : ∃ listed' met',
      Becomes files root .descent ⟨⟨here, front ++ back⟩ :: outer, listed, met⟩
        ⟨⟨here, back⟩ :: outer, listed', met'⟩ := by
  induction front generalizing listed met with
  | nil => exact ⟨listed, met, ReflTransGen.refl⟩
  | cons name front ih =>
    have hvisit : visit files root ⟨outer, listed, met⟩ here name .descent =
        .onDescent files root (outer.map OpenDirectory.stop) here name := rfl
    cases Visit.onDescent_cases files root (outer.map OpenDirectory.stop) here name with
    | inl hpassed =>
      obtain ⟨listed', met', hrest⟩ := ih listed
        (met ++ files.descendEntry root (outer.map OpenDirectory.stop) here name)
      refine ⟨listed', met', Becomes.of_next ?_⟩
      rw [List.cons_append, next_visit, hvisit, hpassed]
      exact hrest
    | inr hentered =>
      obtain ⟨child, hchild, _, _⟩ := hentered
      -- the directory is gone through and left before the next entry
      obtain ⟨between, hbelow⟩ := descent_becomes files root _ child
        (⟨here, front ++ back⟩ :: outer) rfl (files.sortedNames child.location)
        (child.location :: listed) met
      obtain ⟨listed', met', hrest⟩ := ih between _
      refine ⟨listed', met', Becomes.of_next ?_⟩
      rw [List.cons_append, next_visit, hvisit, hchild]
      exact hbelow.trans hrest

/-- A journey that has just entered its first directory. -/
def setOut (files : FileSystem) (first : Stop) : Journey :=
  ⟨[⟨first, files.sortedNames first.location⟩], [first.location], []⟩

/-- Whatever directories a descent can open one from the other, at some time they are open. -/
theorem becomes_of_opens (root : Path)
    (h : ReflTransGen files.Opens [first] (here :: trail)) : ∃ outer listed met,
      outer.map OpenDirectory.stop = trail ∧
      Becomes files root .descent (setOut files first)
        ⟨⟨here, files.sortedNames here.location⟩ :: outer, listed, met⟩ := by
  generalize hlast : here :: trail = stops at h
  induction h generalizing here trail with
  | refl =>
    cases hlast
    exact ⟨[], _, _, rfl, ReflTransGen.refl⟩
  | tail hrun hopens ih =>
    obtain ⟨middle, between, child, rfl, rfl⟩ := hopens.exists_child
    obtain ⟨rfl, rfl⟩ := List.cons.inj hlast
    obtain ⟨outer, listed, met, rfl, hbecomes⟩ := ih rfl
    obtain ⟨name, hname, hentered⟩ := Visit.exists_onDescent_of_opens root hopens
    obtain ⟨front, back, hnames⟩ := List.append_of_mem hname
    rw [hnames] at hbecomes
    obtain ⟨listed', met', hfront⟩ := entries_become files root middle outer front (name :: back)
      listed met
    refine ⟨⟨middle, back⟩ :: outer, here.location :: listed', met', rfl,
      (hbecomes.trans hfront).tail ?_⟩
    rw [next_visit]
    exact congrArg (proceed files ⟨⟨middle, back⟩ :: outer, listed', met'⟩) hentered

/-- Whether the entry that is visited next is a link that is followed, and leads to a directory
above an open one. -/
def FollowsUp (files : FileSystem) (journey : Journey) : Prop :=
  ∃ here name left outer, journey.trail = ⟨here, name :: left⟩ :: outer ∧
    files.LeadsUp (outer.map OpenDirectory.stop) here name

theorem start_descent_cases (files : FileSystem) (root : Path) :
    (start files root .descent).IsOver ∨ ∃ first, files.isDirectoryAt first.location = true ∧
      start files root .descent = setOut files first := by
  unfold start Visit.ofDescentRoot
  cases files.locate root with
  | error reason => exact Or.inl rfl
  | ok location =>
    dsimp only
    cases hcontent : files.contentAt? location with
    | none => exact Or.inl rfl
    | some content =>
      cases content with
      | file bytes => exact Or.inl rfl
      | link path => exact Or.inl rfl
      | directory => exact Or.inr ⟨⟨root, location⟩, FileSystem.isDirectoryAt_iff.mpr hcontent, rfl⟩

theorem isOver_after (h : (start files root route).IsOver) (steps : Nat) :
    (after files root route steps).IsOver := by
  induction steps with
  | zero => exact h
  | succ steps ih =>
    rw [after, next_of_isOver ih]
    exact ih

theorem hasOpened_after (hstart : start files root .descent = setOut files first) (steps : Nat) :
    (after files root .descent steps).HasOpened files first := by
  induction steps with
  | zero =>
    rw [after, hstart]
    exact Or.inr .refl
  | succ steps ih => exact ih.next root

/-- The directories that are open on a descent are distinct if and only if none is opened while it
is open. -/
theorem nodup_after_iff_opensOnce (hstart : start files root .descent = setOut files first) :
    (∀ steps, (after files root .descent steps).directories.Nodup) ↔ files.OpensOnce [first] := by
  constructor
  · intro hnodup next hrun
    cases next with
    | nil => exact List.nodup_nil
    | cons here trail =>
      obtain ⟨outer, listed, met, rfl, hbecomes⟩ := becomes_of_opens root hrun
      rw [← hstart] at hbecomes
      obtain ⟨steps, hsteps⟩ := exists_after_eq hbecomes
      have hopen := hnodup steps
      rw [hsteps] at hopen
      exact hopen
  · intro honce steps
    unfold directories
    cases hasOpened_after hstart steps with
    | inl hnone =>
      rw [hnone]
      exact List.nodup_nil
    | inr hrun => exact honce hrun

theorem exists_followsUp_iff (hstart : start files root .descent = setOut files first) :
    (∃ steps, (after files root .descent steps).FollowsUp files) ↔ ∃ here trail name,
      ReflTransGen files.Opens [first] (here :: trail) ∧ files.LeadsUp trail here name := by
  constructor
  · intro h
    obtain ⟨steps, here, name, left, outer, htrail, hup⟩ := h
    have hopened := hasOpened_after hstart steps
    unfold HasOpened stops at hopened
    rw [htrail] at hopened
    exact ⟨here, _, name, hopened.resolve_left (List.cons_ne_nil _ _), hup⟩
  · intro h
    obtain ⟨here, trail, name, hrun, hup⟩ := h
    obtain ⟨outer, listed, met, rfl, hbecomes⟩ := becomes_of_opens root hrun
    obtain ⟨front, back, hnames⟩ := List.append_of_mem hup.name_mem
    rw [hnames, ← hstart] at hbecomes
    obtain ⟨listed', met', hfront⟩ := entries_become files root here outer front (name :: back)
      listed met
    obtain ⟨steps, hsteps⟩ := exists_after_eq (hbecomes.trans hfront)
    refine ⟨steps, here, name, back, outer, ?_, hup⟩
    rw [hsteps]

/-- At every step of a tour the open directories are distinct. On a descent they are distinct at
every step if and only if it never follows a link to a directory above an open one. -/
theorem nodup_directories_after (files : FileSystem) (root : Path) :
    (∀ steps, (after files root .tour steps).directories.Nodup) ∧
      (files.IsTree → ((∀ steps, (after files root .descent steps).directories.Nodup) ↔
        ∀ steps, ¬(after files root .descent steps).FollowsUp files)) := by
  refine ⟨fun steps ↦ (entersOnce_after files root steps).nodup, fun hfiles ↦ ?_⟩
  cases start_descent_cases files root with
  | inl hover =>
    have htrail (steps : Nat) : (after files root .descent steps).trail = [] :=
      isOver_after hover steps
    apply iff_of_true
    · intro steps
      unfold directories stops
      rw [htrail]
      exact List.nodup_nil
    · rintro steps ⟨here, name, left, outer, htop, _⟩
      rw [htrail] at htop
      cases htop
  | inr hset =>
    obtain ⟨first, hdirectory, hstart⟩ := hset
    rw [nodup_after_iff_opensOnce hstart, FileSystem.opensOnce_iff hfiles hdirectory,
      ← not_exists, exists_followsUp_iff hstart]
    simp only [not_exists, not_and]

/-- A folder `d` with a link to the directory in which it lies. -/
def parentLinked : FileSystem where
  nodes :=
    [([], ⟨.directory, ⟨0, 0⟩⟩), (["d".toList], ⟨.directory, ⟨0, 0⟩⟩),
      (["a".toList, "d".toList], ⟨.link (Path.ofString ".."), ⟨0, 0⟩⟩)]
  working := []
  now := ⟨0, 0⟩

/-- The link is followed up, and the folder is entered a second time while it is open. -/
theorem nodup_directories_after_parentLinked :
    parentLinked.IsTree ∧
      (after parentLinked (Path.ofString "d") .descent 2).directories =
        [["d".toList], [], ["d".toList]] ∧
      (∃ steps, (after parentLinked (Path.ofString "d") .descent steps).FollowsUp parentLinked) ∧
      ∀ steps, (after parentLinked (Path.ofString "d") .tour steps).directories.Nodup := by
  have hfiles : parentLinked.IsTree := by decide
  have htwice : (after parentLinked (Path.ofString "d") .descent 2).directories =
      [["d".toList], [], ["d".toList]] := by decide +kernel
  obtain ⟨htour, hdescent⟩ := nodup_directories_after parentLinked (Path.ofString "d")
  refine ⟨hfiles, htwice, ?_, htour⟩
  by_contra hnone
  have hnodup := (hdescent hfiles).mpr (not_exists.mp hnone) 2
  rw [htwice] at hnodup
  revert hnodup
  decide

end Journey

end DefCatalog
