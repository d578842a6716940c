import DefCatalog.Proofs.Scan.Opening
import DefCatalog.Scan.Tour
import Mathlib.Data.List.Nodup

/-!
# What a tour sees

A tour is cut into the directories that it lists, each inside the one before. It opens directories
as a descent does, but passes over those that it has listed. So it sees nothing that a descent does not
meet, and no entry of a directory twice; and since everything below a directory that it passes over
is listed as well, it sees every document that can be reached.
-/

namespace DefCatalog

open Relation

/-- A document that is seen in an open directory. -/
structure Sight where
  stop : Stop
  name : Text
  content : Bytes
deriving DecidableEq, Repr

namespace Sight

def path (sight : Sight) : Path :=
  sight.stop.path.join ⟨sight.name⟩

/-- The directory, whatever path led to it, and the entry in it. -/
def entry (sight : Sight) : Location × Text :=
  (sight.stop.location, sight.name)

def encounter (sight : Sight) : Encounter :=
  .document sight.path sight.content

/-- What is seen of an entry whose path leads to a file. -/
def ofFile (here : Stop) (name : Text) (content : Bytes) : List Sight :=
  if (here.path.join ⟨name⟩).extension? = some Encounter.documentExtension then
    [⟨here, name, content⟩]
  else []

/-- What is met at an entry whose path leads to a file is what is seen of it. -/
theorem documents_ofFile {files : FileSystem} {here : Stop} {name : Text} {target : Location}
    {content : Bytes} (hpath : files.locate (here.path.join ⟨name⟩) = .ok target)
    (htarget : files.contentAt? target = some (.file content)) :
    Encounter.documents (Encounter.ofFile files (here.path.join ⟨name⟩)) =
      (ofFile here name content).map encounter := by
  rw [Encounter.ofFile_of_readFile (FileSystem.readFile_eq_ok_iff.mpr ⟨target, hpath, htarget⟩)]
  unfold ofFile
  split <;> rfl

theorem mem_ofFile {here : Stop} {name : Text} {content : Bytes} {sight : Sight} :
    sight ∈ ofFile here name content ↔ sight = ⟨here, name, content⟩ ∧
      (here.path.join ⟨name⟩).extension? = some Encounter.documentExtension := by
  unfold ofFile
  split <;> simp_all

end Sight

namespace FileSystem

variable {files : FileSystem} {root : Path} {listed after : List Location} {trail : List Stop}
  {here : Stop} {name : Text} {names : List Text} {sights : List Sight} {start target : Location}

/-! ## Tours, directory by directory -/

/-- Whether a tour that has got to some entries of the directory `here` sees the documents `sights`
in them and below and has then listed the directories `after`. -/
inductive Tours (files : FileSystem) :
    List Location → List Stop → Stop → List Text → List Sight → List Location → Prop where
  | nil {listed : List Location} {trail : List Stop} {here : Stop} :
      Tours files listed trail here [] [] listed
  | file {listed after : List Location} {trail : List Stop} {here : Stop} {name : Text}
      {names : List Text} {sights : List Sight} {target : Location} {content : Bytes}
      (hpath : files.locate (here.path.join ⟨name⟩) = .ok target)
      (htarget : files.contentAt? target = some (.file content))
      (hrest : Tours files listed trail here names sights after) :
      Tours files listed trail here (name :: names) (Sight.ofFile here name content ++ sights) after
  | enter {listed between after : List Location} {trail : List Stop} {here : Stop} {name : Text}
      {names : List Text} {inner sights : List Sight} {target : Location}
      (hpath : files.locate (here.path.join ⟨name⟩) = .ok target)
      (htarget : files.isDirectoryAt target = true) (hnew : target ∉ listed)
      (hinner : Tours files (target :: listed) (here :: trail) ⟨here.path.join ⟨name⟩, target⟩
        (files.sortedNames target) inner between)
      (hrest : Tours files between trail here names sights after) :
      Tours files listed trail here (name :: names) (inner ++ sights) after
  | revisit {listed after : List Location} {trail : List Stop} {here : Stop} {name : Text}
      {names : List Text} {sights : List Sight} {target : Location}
      (hpath : files.locate (here.path.join ⟨name⟩) = .ok target)
      (htarget : files.isDirectoryAt target = true) (hlisted : target ∈ listed)
      (hrest : Tours files listed trail here names sights after) :
      Tours files listed trail here (name :: names) sights after
  | nowhere {listed after : List Location} {trail : List Stop} {here : Stop} {name : Text}
      {names : List Text} {sights : List Sight}
      (hnowhere : files.LeadsNowhere (here.path.join ⟨name⟩))
      (hrest : Tours files listed trail here names sights after) :
      Tours files listed trail here (name :: names) sights after

theorem Tours.subset (h : files.Tours listed trail here names sights after) : listed ⊆ after := by
  induction h with
  | nil => exact List.Subset.refl _
  | file _ _ _ ih => exact ih
  | enter _ _ _ _ _ ihinner ih =>
    exact fun location hmem ↦ ih (ihinner (List.mem_cons_of_mem _ hmem))
  | revisit _ _ _ _ ih => exact ih
  | nowhere _ _ ih => exact ih

theorem unseenCount_anti (files : FileSystem) {seen more : List Location} (h : seen ⊆ more) :
    files.unseenCount more ≤ files.unseenCount seen := by
  apply List.countP_mono_left
  intro directory _ hmore
  simp only [decide_eq_true_eq] at hmore ⊢
  exact fun hseen ↦ hmore (h hseen)

section Step

variable {path : Path} {agenda : List Path}

theorem tourFrom_nil : files.tourFrom listed [] = [] := by
  rw [tourFrom]

theorem tour_of_single {name : Text} (hdirectory : files.locateDirectory path = .ok target)
    (hnames : files.sortedNames target = [name]) :
    files.tour path = files.tourFrom [target] [path.join ⟨name⟩] := by
  unfold tour listing
  rw [hdirectory]
  dsimp only
  rw [hnames]
  rfl

theorem tourFrom_cons (files : FileSystem) (listed : List Location) (path : Path)
    (agenda : List Path) :
    files.tourFrom listed (path :: agenda) =
      match files.locate path with
      | .error reason => .skipped (.unreadable path reason) :: files.tourFrom listed agenda
      | .ok location =>
        match files.contentAt? location with
        | some .directory =>
          if location ∈ listed then .skipped (.revisited path) :: files.tourFrom listed agenda
          else files.tourFrom (location :: listed) (files.listing path location ++ agenda)
        | some (.file _) => Encounter.ofFile files path ++ files.tourFrom listed agenda
        | _ => files.tourFrom listed agenda := by
  rw [tourFrom]
  cases files.locate path with
  | error reason => rfl
  | ok location =>
    dsimp only
    split <;> simp_all

theorem tourFrom_file {content : Bytes} (hpath : files.locate path = .ok target)
    (htarget : files.contentAt? target = some (.file content)) :
    files.tourFrom listed (path :: agenda) =
      Encounter.ofFile files path ++ files.tourFrom listed agenda := by
  simp only [tourFrom_cons, hpath, htarget]

theorem tourFrom_enter (hpath : files.locate path = .ok target)
    (htarget : files.isDirectoryAt target = true) (hnew : target ∉ listed) :
    files.tourFrom listed (path :: agenda) =
      files.tourFrom (target :: listed) (files.listing path target ++ agenda) := by
  simp only [tourFrom_cons, hpath, isDirectoryAt_iff.mp htarget, if_neg hnew]

theorem documents_tourFrom_revisit (hpath : files.locate path = .ok target)
    (htarget : files.isDirectoryAt target = true) (hlisted : target ∈ listed) :
    Encounter.documents (files.tourFrom listed (path :: agenda)) =
      Encounter.documents (files.tourFrom listed agenda) := by
  simp only [tourFrom_cons, hpath, isDirectoryAt_iff.mp htarget, if_pos hlisted]
  rfl

theorem documents_tourFrom_nowhere (hnowhere : files.LeadsNowhere path) :
    Encounter.documents (files.tourFrom listed (path :: agenda)) =
      Encounter.documents (files.tourFrom listed agenda) := by
  rw [tourFrom_cons]
  cases hpath : files.locate path with
  | error reason => rfl
  | ok target =>
    obtain ⟨hdirectory, hfile⟩ := hnowhere target hpath
    dsimp only
    split <;> simp_all [isDirectoryAt]

/-- What a tour meets and counts it has read: it passes over a path that leads nowhere before it
asks for a document. -/
theorem countP_isUnread_tourFrom (files : FileSystem) (listed : List Location)
    (agenda : List Path) : (files.tourFrom listed agenda).countP Encounter.isUnread = 0 := by
  induction listed, agenda using tourFrom.induct files with
  | case1 listed => rw [tourFrom, List.countP_nil]
  | case2 listed path agenda reason hpath ih =>
    simp only [tourFrom_cons, hpath]
    exact ih
  | case3 listed path agenda location hpath hcontent hlisted ih =>
    simp only [tourFrom_cons, hpath, hcontent, if_pos hlisted]
    exact ih
  | case4 listed path agenda location hpath hcontent hlisted ih =>
    simp only [tourFrom_cons, hpath, hcontent, if_neg hlisted]
    exact ih
  | case5 listed path agenda location hpath content hcontent ih =>
    have hread := readFile_eq_ok_iff.mpr ⟨location, hpath, hcontent⟩
    have hfile : (Encounter.ofFile files path).countP Encounter.isUnread = 0 := by
      rw [Encounter.ofFile_of_readFile hread]
      split <;> rfl
    rw [tourFrom_file hpath hcontent, List.countP_append, hfile, ih]
  | case6 listed path agenda location hpath hdirectory hfile ih =>
    simp only [tourFrom_cons, hpath]
    exact ih

end Step

/-- What is met on the paths of entries is what a tour sees in them and below. -/
theorem exists_tours (files : FileSystem) (listed : List Location) (trail : List Stop) (here : Stop)
    (names : List Text) :
    ∃ sights after, files.Tours listed trail here names sights after ∧ ∀ agenda,
      Encounter.documents
          (files.tourFrom listed ((names.map fun name ↦ here.path.join ⟨name⟩) ++ agenda)) =
        sights.map Sight.encounter ++ Encounter.documents (files.tourFrom after agenda) := by
  match names with
  | [] => exact ⟨[], listed, .nil, fun agenda ↦ rfl⟩
  | name :: names =>
    obtain ⟨target, content, hpath, htarget⟩ | ⟨target, hpath, htarget⟩ | hnowhere :=
      files.locate_cases (here.path.join ⟨name⟩)
    · obtain ⟨sights, after, htours, hmet⟩ := exists_tours files listed trail here names
      refine ⟨_, after, .file hpath htarget htours, fun agenda ↦ ?_⟩
      rw [List.map_cons, List.cons_append]
      calc
        Encounter.documents (files.tourFrom listed (here.path.join ⟨name⟩ :: _)) =
            (Sight.ofFile here name content).map Sight.encounter ++
              Encounter.documents (files.tourFrom listed
                ((names.map fun name ↦ here.path.join ⟨name⟩) ++ agenda)) := by
          rw [tourFrom_file hpath htarget, Encounter.documents_append,
            Sight.documents_ofFile hpath htarget]
        _ = (Sight.ofFile here name content).map Sight.encounter ++
            (sights.map Sight.encounter ++ Encounter.documents (files.tourFrom after agenda)) := by
          rw [hmet]
        _ = (Sight.ofFile here name content ++ sights).map Sight.encounter ++
            Encounter.documents (files.tourFrom after agenda) := by
          rw [List.map_append, List.append_assoc]
    · by_cases hlisted : target ∈ listed
      · obtain ⟨sights, after, htours, hmet⟩ := exists_tours files listed trail here names
        refine ⟨sights, after, .revisit hpath htarget hlisted htours, fun agenda ↦ ?_⟩
        rw [List.map_cons, List.cons_append, documents_tourFrom_revisit hpath htarget hlisted, hmet]
      · have hfewer := unseenCount_cons_lt htarget hlisted
        obtain ⟨inner, between, hinner, hbelow⟩ := exists_tours files (target :: listed)
          (here :: trail) ⟨here.path.join ⟨name⟩, target⟩ (files.sortedNames target)
        have hle := files.unseenCount_anti hinner.subset
        obtain ⟨sights, after, htours, hmet⟩ := exists_tours files between trail here names
        refine ⟨inner ++ sights, after, .enter hpath htarget hlisted hinner htours, fun agenda ↦ ?_⟩
        rw [List.map_cons, List.cons_append]
        calc
          Encounter.documents (files.tourFrom listed (here.path.join ⟨name⟩ :: _)) =
              inner.map Sight.encounter ++ Encounter.documents (files.tourFrom between
                ((names.map fun name ↦ here.path.join ⟨name⟩) ++ agenda)) := by
            rw [tourFrom_enter hpath htarget hlisted, listing, hbelow]
          _ = inner.map Sight.encounter ++
              (sights.map Sight.encounter ++ Encounter.documents (files.tourFrom after agenda)) := by
            rw [hmet]
          _ = (inner ++ sights).map Sight.encounter ++
              Encounter.documents (files.tourFrom after agenda) := by
            rw [List.map_append, List.append_assoc]
    · obtain ⟨sights, after, htours, hmet⟩ := exists_tours files listed trail here names
      refine ⟨sights, after, .nowhere hnowhere htours, fun agenda ↦ ?_⟩
      rw [List.map_cons, List.cons_append, documents_tourFrom_nowhere hnowhere, hmet]
-- each entry leaves fewer entries, and each directory that is entered fewer to be listed
termination_by (files.unseenCount listed, names.length)
decreasing_by
  · exact Prod.Lex.right _ (Nat.lt_succ_self _)
  · exact Prod.Lex.right _ (Nat.lt_succ_self _)
  · exact Prod.Lex.left _ _ hfewer
  · exact Prod.Lex.left _ _ (Nat.lt_of_le_of_lt hle hfewer)
  · exact Prod.Lex.right _ (Nat.lt_succ_self _)

theorem exists_tours_root (hroot : files.locateDirectory root = .ok start) :
    ∃ sights after, files.Tours [start] [] ⟨root, start⟩ (files.sortedNames start) sights after ∧
      Encounter.documents (files.tour root) = sights.map Sight.encounter := by
  obtain ⟨sights, after, htours, hmet⟩ :=
    files.exists_tours [start] [] ⟨root, start⟩ (files.sortedNames start)
  refine ⟨sights, after, htours, ?_⟩
  have hend : Encounter.documents (files.tourFrom after []) = [] := by
    rw [tourFrom]
    rfl
  unfold tour listing
  rw [hroot]
  dsimp only
  rw [← List.append_nil (List.map _ _), hmet, hend, List.append_nil]

/-- What holds of a tour that has got to some entries of the directory `here`. -/
structure Underway (files : FileSystem) (listed : List Location) (trail : List Stop) (here : Stop)
    (names : List Text) : Prop where
  located : files.Located (here :: trail)
  open_subset : (here :: trail).map Stop.location ⊆ listed
  names_subset : names ⊆ files.sortedNames here.location
  nodup : names.Nodup

namespace Underway

theorem ofRoot (hfiles : files.WellFormed) (hroot : files.locateDirectory root = .ok start) :
    files.Underway [start] [] ⟨root, start⟩ (files.sortedNames start) where
  located := located_of_locateDirectory hroot
  open_subset := List.Subset.refl _
  names_subset := List.Subset.refl _
  nodup := hfiles.nodup_sortedNames start

theorem tail (h : files.Underway listed trail here (name :: names)) :
    files.Underway listed trail here names where
  located := h.located
  open_subset := h.open_subset
  names_subset := fun _ hmem ↦ h.names_subset (List.mem_cons_of_mem name hmem)
  nodup := h.nodup.of_cons

theorem mono (h : files.Underway listed trail here names) (hsubset : listed ⊆ after) :
    files.Underway after trail here names :=
  { h with open_subset := fun _ hmem ↦ hsubset (h.open_subset hmem) }

theorem name_mem (h : files.Underway listed trail here (name :: names)) :
    name ∈ files.sortedNames here.location :=
  h.names_subset List.mem_cons_self

theorem leads (hfiles : files.WellFormed) (h : files.Underway listed trail here (name :: names))
    (hpath : files.locate (here.path.join ⟨name⟩) = .ok target) :
    files.Leads here.location name target := by
  obtain ⟨content, hentry⟩ := mem_sortedNames_iff.mp h.name_mem
  exact leads_of_locate hfiles h.located.head.1 hentry hpath

/-- A directory that has not been listed is opened, as on a descent. -/
theorem opens (hfiles : files.WellFormed) (h : files.Underway listed trail here (name :: names))
    (hpath : files.locate (here.path.join ⟨name⟩) = .ok target)
    (htarget : files.isDirectoryAt target = true) (hnew : target ∉ listed) :
    files.Opens (here :: trail) (⟨here.path.join ⟨name⟩, target⟩ :: here :: trail) := by
  cases descendEntry_of_directory here.path hfiles h.located h.name_mem hpath htarget with
  | inl hopens => exact hopens.1
  | inr hloop => exact absurd (h.open_subset hloop.1) hnew

theorem descendEntry_eq (root : Path) (hfiles : files.WellFormed)
    (h : files.Underway listed trail here (name :: names))
    (hpath : files.locate (here.path.join ⟨name⟩) = .ok target)
    (htarget : files.isDirectoryAt target = true) (hnew : target ∉ listed) :
    files.descendEntry root trail here name =
      files.descend root (here :: trail) ⟨here.path.join ⟨name⟩, target⟩ := by
  cases descendEntry_of_directory root hfiles h.located h.name_mem hpath htarget with
  | inl hopens => exact hopens.2
  | inr hloop => exact absurd (h.open_subset hloop.1) hnew

theorem enter (hfiles : files.WellFormed) (h : files.Underway listed trail here (name :: names))
    (hpath : files.locate (here.path.join ⟨name⟩) = .ok target)
    (htarget : files.isDirectoryAt target = true) (hnew : target ∉ listed) :
    files.Underway (target :: listed) (here :: trail) ⟨here.path.join ⟨name⟩, target⟩
      (files.sortedNames target) where
  located := h.located.opens hfiles (h.opens hfiles hpath htarget hnew)
  open_subset := List.cons_subset_cons target h.open_subset
  names_subset := List.Subset.refl _
  nodup := hfiles.nodup_sortedNames target

end Underway

/-- Whatever a tour sees is met on a descent, in the same order and by the same paths. -/
theorem Tours.sublist (root : Path) (hfiles : files.WellFormed)
    (h : files.Tours listed trail here names sights after)
    (hunderway : files.Underway listed trail here names) :
    List.Sublist (sights.map Sight.encounter)
      (Encounter.documents (names.flatMap (files.descendEntry root trail here))) := by
  induction h with
  | nil => exact List.Sublist.refl _
  | file hpath htarget hrest ih =>
    rw [List.map_append, List.flatMap_cons, Encounter.documents_append,
      descendEntry_of_file hfiles hunderway.located hunderway.name_mem hpath htarget,
      Sight.documents_ofFile hpath htarget]
    exact (ih hunderway.tail).append_left _
  | enter hpath htarget hnew hinner hrest ihinner ih =>
    have hbetween := List.subset_of_cons_subset hinner.subset
    rw [List.map_append, List.flatMap_cons, Encounter.documents_append,
      hunderway.descendEntry_eq root hfiles hpath htarget hnew, descend_eq]
    exact (ihinner (hunderway.enter hfiles hpath htarget hnew)).append
      (ih (hunderway.tail.mono hbetween))
  | revisit hpath htarget hlisted hrest ih =>
    rw [List.flatMap_cons, Encounter.documents_append]
    exact (ih hunderway.tail).trans (List.sublist_append_right _ _)
  | nowhere hnowhere hrest ih =>
    rw [List.flatMap_cons, Encounter.documents_append]
    exact (ih hunderway.tail).trans (List.sublist_append_right _ _)

/-- Whatever a tour sees stands in a directory that a descent opens. -/
theorem Tours.opens (hfiles : files.WellFormed)
    (h : files.Tours listed trail here names sights after)
    (hunderway : files.Underway listed trail here names) {sight : Sight} (hsight : sight ∈ sights) :
    files.Shows sight.stop sight.name sight.content ∧
      ∃ outer, ReflTransGen files.Opens (here :: trail) (sight.stop :: outer) := by
  induction h with
  | nil => cases hsight
  | file hpath htarget hrest ih =>
    cases List.mem_append.mp hsight with
    | inl hhead =>
      obtain ⟨rfl, hextension⟩ := Sight.mem_ofFile.mp hhead
      rw [extension?_entry hfiles hunderway.located.head.1 hunderway.name_mem] at hextension
      exact ⟨⟨hunderway.name_mem, hextension, _, hpath, htarget⟩, _, .refl⟩
    | inr htail => exact ih hunderway.tail htail
  | enter hpath htarget hnew hinner hrest ihinner ih =>
    have hbetween := List.subset_of_cons_subset hinner.subset
    cases List.mem_append.mp hsight with
    | inl hhead =>
      obtain ⟨hshows, outer, hrun⟩ :=
        ihinner (hunderway.enter hfiles hpath htarget hnew) hhead
      exact ⟨hshows, outer, .head (hunderway.opens hfiles hpath htarget hnew) hrun⟩
    | inr htail => exact ih (hunderway.tail.mono hbetween) htail
  | revisit hpath htarget hlisted hrest ih =>
    exact ih hunderway.tail hsight
  | nowhere hnowhere hrest ih => exact ih hunderway.tail hsight

/-- Whatever is listed below a new directory, it included, is new. -/
theorem mem_and_not_mem_of_cons {between : List Location} {location : Location} {p : Prop}
    (hlisted : target ∈ between) (hnew : target ∉ listed)
    (h : (location = target ∧ p) ∨ (location ∈ between ∧ location ∉ target :: listed)) :
    location ∈ between ∧ location ∉ listed := by
  cases h with
  | inl hmem =>
    rw [hmem.1]
    exact ⟨hlisted, hnew⟩
  | inr hmem => exact ⟨hmem.1, fun hold ↦ hmem.2 (List.mem_cons_of_mem target hold)⟩

/-- A tour sees documents in the entries that it has got to and in directories that it lists. -/
theorem Tours.entry_cases (h : files.Tours listed trail here names sights after) {sight : Sight}
    (hsight : sight ∈ sights) :
    (sight.stop.location = here.location ∧ sight.name ∈ names) ∨
      (sight.stop.location ∈ after ∧ sight.stop.location ∉ listed) := by
  induction h with
  | nil => cases hsight
  | file hpath htarget hrest ih =>
    cases List.mem_append.mp hsight with
    | inl hhead =>
      obtain ⟨rfl, _⟩ := Sight.mem_ofFile.mp hhead
      exact Or.inl ⟨rfl, List.mem_cons_self⟩
    | inr htail => exact (ih htail).imp_left fun hmem ↦ ⟨hmem.1, List.mem_cons_of_mem _ hmem.2⟩
  | enter hpath htarget hnew hinner hrest ihinner ih =>
    cases List.mem_append.mp hsight with
    | inl hhead =>
      have hinside :=
        mem_and_not_mem_of_cons (hinner.subset List.mem_cons_self) hnew (ihinner hhead)
      exact Or.inr ⟨hrest.subset hinside.1, hinside.2⟩
    | inr htail =>
      cases ih htail with
      | inl hmem => exact Or.inl ⟨hmem.1, List.mem_cons_of_mem _ hmem.2⟩
      | inr hmem =>
        have hbetween := List.subset_of_cons_subset hinner.subset
        exact Or.inr ⟨hmem.1, fun hlisted ↦ hmem.2 (hbetween hlisted)⟩
  | revisit hpath htarget hlisted hrest ih =>
    exact (ih hsight).imp_left fun hmem ↦ ⟨hmem.1, List.mem_cons_of_mem _ hmem.2⟩
  | nowhere hnowhere hrest ih =>
    exact (ih hsight).imp_left fun hmem ↦ ⟨hmem.1, List.mem_cons_of_mem _ hmem.2⟩

theorem Tours.nodup_entries (hfiles : files.WellFormed)
    (h : files.Tours listed trail here names sights after)
    (hunderway : files.Underway listed trail here names) : (sights.map Sight.entry).Nodup := by
  induction h with
  | nil => exact List.nodup_nil
  | @file listed after trail here name names sights target content hpath htarget hrest ih =>
    rw [List.map_append]
    apply List.Nodup.append _ (ih hunderway.tail)
    · intro entry hhead htail
      obtain ⟨first, hfirst, rfl⟩ := List.mem_map.mp hhead
      obtain ⟨rfl, _⟩ := Sight.mem_ofFile.mp hfirst
      obtain ⟨sight, hsight, hentry⟩ := List.mem_map.mp htail
      obtain ⟨hlocation, hname⟩ : sight.stop.location = here.location ∧ sight.name = name :=
        Prod.mk.inj hentry
      cases hrest.entry_cases hsight with
      | inl hmem => exact (List.nodup_cons.mp hunderway.nodup).1 (hname ▸ hmem.2)
      | inr hmem =>
        rw [hlocation] at hmem
        exact hmem.2 (hunderway.open_subset List.mem_cons_self)
    · unfold Sight.ofFile
      split
      · exact List.nodup_singleton _
      · exact List.nodup_nil
  | @enter listed between after trail here name names inner sights target hpath htarget hnew hinner
      hrest ihinner ih =>
    have hbetween := List.subset_of_cons_subset hinner.subset
    rw [List.map_append]
    apply List.Nodup.append (ihinner (hunderway.enter hfiles hpath htarget hnew))
      (ih (hunderway.tail.mono hbetween))
    intro entry hhead htail
    obtain ⟨first, hfirst, rfl⟩ := List.mem_map.mp hhead
    obtain ⟨sight, hsight, hentry⟩ := List.mem_map.mp htail
    have hlocation : sight.stop.location = first.stop.location := congrArg Prod.fst hentry
    -- what is seen inside stands in directories that are listed when the tour goes on
    have hinside := mem_and_not_mem_of_cons (hinner.subset List.mem_cons_self) hnew
      (hinner.entry_cases hfirst)
    cases hrest.entry_cases hsight with
    | inl hmem =>
      apply hinside.2
      rw [← hlocation, hmem.1]
      exact hunderway.open_subset List.mem_cons_self
    | inr hmem => exact hmem.2 (hlocation ▸ hinside.1)
  | revisit hpath htarget hlisted hrest ih => exact ih hunderway.tail
  | nowhere hnowhere hrest ih => exact ih hunderway.tail

/-! ## All documents -/

/-- Whether an entry is done with: a document in it has been seen, and a directory to which it leads
has been listed. -/
structure Explored (files : FileSystem) (listed : List Location) (sights : List Sight)
    (directory : Location) (name : Text) : Prop where
  seen : ∀ content, files.Holds directory name content →
    ∃ sight ∈ sights, sight.entry = (directory, name) ∧ sight.content = content
  listed : ∀ target, files.Leads directory name target → files.isDirectoryAt target = true →
    target ∈ listed

namespace Explored

variable {directory : Location}

theorem mono {more : List Sight} (h : files.Explored listed sights directory name)
    (hlisted : listed ⊆ after) (hsights : sights ⊆ more) :
    files.Explored after more directory name where
  seen := by
    intro content hholds
    obtain ⟨sight, hsight, hentry⟩ := h.seen content hholds
    exact ⟨sight, hsights hsight, hentry⟩
  listed := fun target hleads htarget ↦ hlisted (h.listed target hleads htarget)

theorem of_not_mem (h : name ∉ files.sortedNames directory) :
    files.Explored listed sights directory name where
  seen := by
    intro content hholds
    obtain ⟨_, _, hleads, _⟩ := hholds
    exact absurd (mem_sortedNames_iff.mpr hleads.1) h
  listed := fun target hleads _ ↦ absurd (mem_sortedNames_iff.mpr hleads.1) h

end Explored

namespace Underway

/-- Within the limits on paths, the path of an entry leads where the entry leads. -/
theorem locate (hfiles : files.WellFormed) (h : files.Underway listed trail here (name :: names))
    (hlimit : files.WithinLimitFrom (here :: trail))
    (hleads : files.Leads here.location name target) :
    files.locate (here.path.join ⟨name⟩) = .ok target :=
  locate_of_leads hfiles h.located.head.1 (hlimit .refl h.name_mem) hleads

theorem target_eq (hfiles : files.WellFormed)
    (h : files.Underway listed trail here (name :: names))
    (hlimit : files.WithinLimitFrom (here :: trail))
    (hpath : files.locate (here.path.join ⟨name⟩) = .ok target) {target' : Location}
    (hleads : files.Leads here.location name target') : target' = target := by
  have hpath' := h.locate hfiles hlimit hleads
  rw [hpath] at hpath'
  exact (Except.ok.inj hpath').symm

/-- An entry that leads to a file is done with when the document in it is seen. -/
theorem explored_of_file (hfiles : files.WellFormed)
    (h : files.Underway listed trail here (name :: names))
    (hlimit : files.WithinLimitFrom (here :: trail))
    (hpath : files.locate (here.path.join ⟨name⟩) = .ok target) {content : Bytes}
    (htarget : files.contentAt? target = some (.file content))
    (hsights : Sight.ofFile here name content ⊆ sights) :
    files.Explored after sights here.location name where
  seen := by
    intro content' hholds
    obtain ⟨hextension, target', hleads, htarget'⟩ := hholds
    rw [h.target_eq hfiles hlimit hpath hleads, htarget] at htarget'
    cases htarget'
    have hmem : ⟨here, name, content⟩ ∈ Sight.ofFile here name content := by
      rw [Sight.mem_ofFile, extension?_entry hfiles h.located.head.1 h.name_mem]
      exact ⟨rfl, hextension⟩
    exact ⟨_, hsights hmem, rfl, rfl⟩
  listed := by
    intro target' hleads htarget'
    rw [h.target_eq hfiles hlimit hpath hleads] at htarget'
    simp [isDirectoryAt, htarget] at htarget'

/-- An entry that leads to a directory is done with as soon as the directory is listed. -/
theorem explored_of_directory (hfiles : files.WellFormed)
    (h : files.Underway listed trail here (name :: names))
    (hlimit : files.WithinLimitFrom (here :: trail))
    (hpath : files.locate (here.path.join ⟨name⟩) = .ok target)
    (htarget : files.isDirectoryAt target = true) (hlisted : target ∈ after) :
    files.Explored after sights here.location name where
  seen := by
    intro content hholds
    obtain ⟨_, target', hleads, htarget'⟩ := hholds
    rw [h.target_eq hfiles hlimit hpath hleads] at htarget'
    simp [isDirectoryAt, htarget'] at htarget
  listed := by
    intro target' hleads _
    rwa [h.target_eq hfiles hlimit hpath hleads]

/-- There is nothing to be done about an entry that leads to neither. -/
theorem explored_of_leadsNowhere (hfiles : files.WellFormed)
    (h : files.Underway listed trail here (name :: names))
    (hlimit : files.WithinLimitFrom (here :: trail))
    (hnowhere : files.LeadsNowhere (here.path.join ⟨name⟩)) :
    files.Explored after sights here.location name where
  seen := by
    intro content hholds
    obtain ⟨_, target, hleads, htarget⟩ := hholds
    exact absurd htarget ((hnowhere target (h.locate hfiles hlimit hleads)).2 content)
  listed := by
    intro target hleads htarget
    rw [(hnowhere target (h.locate hfiles hlimit hleads)).1] at htarget
    cases htarget

end Underway

/-- Whether some entries of a directory are done with, and all directories that are listed and were
not listed before. -/
structure Explores (files : FileSystem) (listed after : List Location) (sights : List Sight)
    (directory : Location) (names : List Text) : Prop where
  entries : ∀ name ∈ names, files.Explored after sights directory name
  directories : ∀ directory ∈ after, directory ∉ listed →
    ∀ name, files.Explored after sights directory name

namespace Explores

variable {directory : Location}

theorem cons {more : List Sight} (h : files.Explores listed after sights directory names)
    (hname : files.Explored after more directory name) (hsights : sights ⊆ more) :
    files.Explores listed after more directory (name :: names) where
  entries := List.forall_mem_cons.mpr
    ⟨hname, fun other hother ↦ (h.entries other hother).mono (List.Subset.refl _) hsights⟩
  directories := fun other hafter hnew name ↦
    (h.directories other hafter hnew name).mono (List.Subset.refl _) hsights

/-- If all entries of a new directory are done with, so is that directory. -/
theorem of_entered
    (h : files.Explores (directory :: listed) after sights directory
      (files.sortedNames directory)) {other : Location} (hafter : other ∈ after)
    (hnew : other ∉ listed) (name : Text) : files.Explored after sights other name := by
  by_cases hentered : other = directory
  · rw [hentered]
    by_cases hname : name ∈ files.sortedNames directory
    · exact h.entries name hname
    · exact .of_not_mem hname
  · exact h.directories other hafter (List.not_mem_cons_of_ne_of_not_mem hentered hnew) name

end Explores

/-- Within the limits on paths, a tour is done with the entries that it has got to and with all
directories that it lists. -/
theorem Tours.explores (hfiles : files.WellFormed)
    (h : files.Tours listed trail here names sights after)
    (hunderway : files.Underway listed trail here names)
    (hlimit : files.WithinLimitFrom (here :: trail)) :
    files.Explores listed after sights here.location names := by
  induction h with
  | nil =>
    exact ⟨fun _ hmem ↦ absurd hmem List.not_mem_nil, fun _ hafter hnew ↦ absurd hafter hnew⟩
  | @file listed after trail here name names sights target content hpath htarget hrest ih =>
    apply (ih hunderway.tail hlimit).cons _ (List.subset_append_right _ sights)
    exact hunderway.explored_of_file hfiles hlimit hpath htarget (List.subset_append_left _ sights)
  | @enter listed between after trail here name names inner sights target hpath htarget hnew hinner
      hrest ihinner ih =>
    have hbetween := List.subset_of_cons_subset hinner.subset
    have hbelow := ihinner (hunderway.enter hfiles hpath htarget hnew)
      (hlimit.opens (hunderway.opens hfiles hpath htarget hnew))
    have hname : files.Explored after (inner ++ sights) here.location name :=
      hunderway.explored_of_directory hfiles hlimit hpath htarget
        (hrest.subset (hinner.subset List.mem_cons_self))
    have hlater := (ih (hunderway.tail.mono hbetween) hlimit).cons hname
      (List.subset_append_right inner sights)
    -- a new directory is listed either inside or later
    refine ⟨hlater.entries, fun directory hafter hold name ↦ ?_⟩
    by_cases hmem : directory ∈ between
    · exact (hbelow.of_entered hmem hold name).mono hrest.subset
        (List.subset_append_left inner sights)
    · exact hlater.directories directory hafter hmem name
  | revisit hpath htarget hlisted hrest ih =>
    apply (ih hunderway.tail hlimit).cons _ (List.Subset.refl _)
    exact hunderway.explored_of_directory hfiles hlimit hpath htarget (hrest.subset hlisted)
  | nowhere hnowhere hrest ih =>
    apply (ih hunderway.tail hlimit).cons _ (List.Subset.refl _)
    exact hunderway.explored_of_leadsNowhere hfiles hlimit hnowhere

end FileSystem

end DefCatalog
