import DefCatalog.Proofs.Files.Entry
import DefCatalog.Scan.Descent
import Mathlib.Logic.Relation

/-!
# What a descent opens

A descent opens one directory after the other, each through an entry of the one before. It opens
every directory that can be reached: a link is passed over only if the directory that it leads to is
open, and then it was opened on the same way before. The documents of a descent are those in the
directories that it opens.
-/

namespace DefCatalog

open Relation

/-- The documents among what is met. -/
def Encounter.documents (met : List Encounter) : List Encounter :=
  met.filter isDocument

/-- Whether a document is met that cannot be read. -/
def Encounter.isUnread : Encounter → Bool
  | unread _ _ => true
  | document _ _ | skipped _ => false

namespace Encounter

theorem countP_isCounted (met : List Encounter) :
    met.countP isCounted = (documents met).length + met.countP isUnread := by
  induction met with
  | nil => rfl
  | cons encounter met ih =>
    cases encounter with
    | document path content =>
      calc
        (document path content :: met).countP isCounted = met.countP isCounted + 1 :=
          List.countP_cons_of_pos rfl
        _ = (documents met).length + 1 + met.countP isUnread := by rw [ih, Nat.add_right_comm]
        _ = (documents (document path content :: met)).length +
            (document path content :: met).countP isUnread := rfl
    | unread path reason =>
      calc
        (unread path reason :: met).countP isCounted = met.countP isCounted + 1 :=
          List.countP_cons_of_pos rfl
        _ = (documents met).length + (met.countP isUnread + 1) := by rw [ih, Nat.add_assoc]
        _ = (documents (unread path reason :: met)).length +
            (unread path reason :: met).countP isUnread := by
          rw [List.countP_cons_of_pos rfl]
          rfl
    | skipped reason => exact ih

@[simp]
theorem documents_append (first second : List Encounter) :
    documents (first ++ second) = documents first ++ documents second :=
  List.filter_append first second

theorem ofFile_of_readFile {files : FileSystem} {path : Path} {content : Bytes}
    (h : files.readFile path = .ok content) :
    ofFile files path =
      if path.extension? = some documentExtension then [document path content] else [] := by
  unfold ofFile
  rw [h]

theorem ofFile_of_locate {files : FileSystem} {path : Path} {target : Location} {content : Bytes}
    (hpath : files.locate path = .ok target)
    (htarget : files.contentAt? target = some (.file content))
    (hextension : path.extension? = some documentExtension) :
    ofFile files path = [document path content] := by
  rw [ofFile_of_readFile (FileSystem.readFile_eq_ok_iff.mpr ⟨target, hpath, htarget⟩),
    if_pos hextension]

theorem documents_ofFile_of_error {files : FileSystem} {path : Path} {reason : FileError}
    (h : files.readFile path = .error reason) : documents (ofFile files path) = [] := by
  unfold ofFile
  rw [h]
  split <;> rfl

theorem document_mem_ofFile {files : FileSystem} {path path' : Path} {content : Bytes} :
    document path' content ∈ ofFile files path ↔
      path' = path ∧ files.readFile path = .ok content ∧
        path.extension? = some documentExtension := by
  constructor
  · intro hmem
    unfold ofFile at hmem
    split at hmem
    · rename_i hextension
      split at hmem
      · rename_i hread
        cases List.mem_singleton.mp hmem
        exact ⟨rfl, hread, hextension⟩
      · cases List.mem_singleton.mp hmem
    · cases hmem
  · rintro ⟨rfl, hread, hextension⟩
    rw [ofFile_of_readFile hread, if_pos hextension]
    exact List.mem_singleton.mpr rfl

theorem document_mem_documents {path : Path} {content : Bytes} {met : List Encounter} :
    document path content ∈ documents met ↔ document path content ∈ met := by
  simp [documents, isDocument]

theorem flatMap_definitions_documents (matching : Matching) (met : List Encounter) :
    (documents met).flatMap (definitions matching) = met.flatMap (definitions matching) := by
  induction met with
  | nil => rfl
  | cons encounter met ih =>
    cases encounter with
    | document path content =>
      exact congrArg (definitions matching (.document path content) ++ ·) ih
    | unread path reason => exact ih
    | skipped reason => exact ih

end Encounter

namespace FileSystem

variable {files : FileSystem} {root : Path} {start directory target location : Location}
  {name : Text} {content : Bytes} {trail stops : List Stop} {here child : Stop}

/-- Whether a directory is reached from `start` by going from entry to entry. -/
inductive Reaches (files : FileSystem) (start : Location) : Location → Prop where
  | start : Reaches files start start
  | entry {directory target : Location} {name : Text} (hreach : Reaches files start directory)
      (hleads : files.Leads directory name target) (htarget : files.isDirectoryAt target = true) :
      Reaches files start target

theorem Reaches.trans (hfirst : files.Reaches start directory)
    (h : files.Reaches directory target) :
    files.Reaches start target := by
  induction h with
  | start => exact hfirst
  | entry _ hleads htarget ih => exact .entry ih hleads htarget

/-- Whether an entry has the name of a document and leads to a file with the given content. -/
def Holds (files : FileSystem) (directory : Location) (name : Text) (content : Bytes) : Prop :=
  Path.extensionOf? name = some Encounter.documentExtension ∧
    ∃ target, files.Leads directory name target ∧ files.contentAt? target = some (.file content)

/-! ## Opening directories -/

/-- How a descent goes on from the open directories, of which the innermost comes first. -/
inductive Opens (files : FileSystem) : List Stop → List Stop → Prop where
  | folder {trail : List Stop} {here : Stop} {name : Text} {found : Location}
      (hentry : files.contentAt? (name :: here.location) = some .directory)
      (hpath : files.locateDirectory (here.path.join ⟨name⟩) = .ok found) :
      Opens files (here :: trail)
        (⟨here.path.join ⟨name⟩, name :: here.location⟩ :: here :: trail)
  | link {trail : List Stop} {here : Stop} {name : Text} {path : Path} {target : Location}
      (hentry : files.contentAt? (name :: here.location) = some (.link path))
      (hpath : files.locate (here.path.join ⟨name⟩) = .ok target)
      (htarget : files.isDirectoryAt target = true)
      (hopen : openAt? (here :: trail) target = none) :
      Opens files (here :: trail) (⟨here.path.join ⟨name⟩, target⟩ :: here :: trail)

/-- Whether the paths of open directories lead to them. -/
def Located (files : FileSystem) (stops : List Stop) : Prop :=
  ∀ stop ∈ stops, files.locate stop.path = .ok stop.location ∧
    files.isDirectoryAt stop.location = true

theorem Located.head (h : files.Located (here :: trail)) :
    files.locate here.path = .ok here.location ∧ files.isDirectoryAt here.location = true :=
  h here List.mem_cons_self

theorem locateDirectory_eq_ok_iff : files.locateDirectory root = .ok start ↔
    files.locate root = .ok start ∧ files.isDirectoryAt start = true := by
  unfold locateDirectory
  cases files.locate root with
  | error reason => simp
  | ok location =>
    by_cases hdirectory : files.isDirectoryAt location = true
    · dsimp only
      rw [if_pos hdirectory]
      refine ⟨fun h ↦ ⟨h, ?_⟩, And.left⟩
      cases h
      exact hdirectory
    · dsimp only
      rw [if_neg hdirectory]
      constructor
      · intro h
        cases h
      · rintro ⟨⟨⟩, hstart⟩
        exact absurd hstart hdirectory

theorem located_of_locateDirectory (h : files.locateDirectory root = .ok start) :
    files.Located [⟨root, start⟩] := by
  intro stop hstop
  rw [List.mem_singleton.mp hstop]
  exact locateDirectory_eq_ok_iff.mp h

theorem Opens.exists_child {next : List Stop} (h : files.Opens stops next) :
    ∃ here trail child, stops = here :: trail ∧ next = child :: stops := by
  cases h with
  | folder | link => exact ⟨_, _, _, rfl, rfl⟩

/-- A directory that is opened is that to which an entry leads. -/
theorem Opens.leads (hfiles : files.WellFormed) (hstops : files.Located (here :: trail))
    (h : files.Opens (here :: trail) (child :: here :: trail)) :
    files.locate child.path = .ok child.location ∧ files.isDirectoryAt child.location = true ∧
      ∃ name, child.path = here.path.join ⟨name⟩ ∧
        files.Leads here.location name child.location := by
  obtain ⟨hpath, hdirectory⟩ := hstops.head
  cases h with
  | folder hentry hfound =>
    obtain ⟨hlocate, _⟩ := locateDirectory_eq_ok_iff.mp hfound
    have hleads := leads_of_locate hfiles hpath hentry hlocate
    obtain rfl := hleads.eq_of_not_link hfiles hentry fun _ ↦ Content.noConfusion
    exact ⟨hlocate, isDirectoryAt_iff.mpr hentry, _, rfl, hleads⟩
  | link hentry hlocate htarget hopen =>
    exact ⟨hlocate, htarget, _, rfl, leads_of_locate hfiles hpath hentry hlocate⟩

theorem Located.opens (hfiles : files.WellFormed) {next : List Stop} (hstops : files.Located stops)
    (h : files.Opens stops next) : files.Located next := by
  obtain ⟨here, trail, child, rfl, rfl⟩ := h.exists_child
  obtain ⟨hpath, hdirectory, _⟩ := h.leads hfiles hstops
  intro stop hstop
  cases hstop with
  | head => exact ⟨hpath, hdirectory⟩
  | tail _ hmem => exact hstops stop hmem

theorem Located.run (hfiles : files.WellFormed) {next : List Stop} (hstops : files.Located stops)
    (h : ReflTransGen files.Opens stops next) : files.Located next := by
  induction h with
  | refl => exact hstops
  | tail _ hstep ih => exact ih.opens hfiles hstep

theorem suffix_of_opens {next : List Stop} (h : ReflTransGen files.Opens stops next) :
    stops <:+ next := by
  induction h with
  | refl => exact List.suffix_refl stops
  | tail _ hstep ih =>
    obtain ⟨_, _, child, _, rfl⟩ := hstep.exists_child
    exact ih.trans (List.suffix_cons child _)

/-- A descent cannot open directories forever, so what holds of a directory if it holds of those
that are opened from it holds of all. -/
theorem opensInduction (files : FileSystem) {motive : List Stop → Stop → Prop}
    (step : ∀ trail here,
      (∀ child, files.Opens (here :: trail) (child :: here :: trail) →
        motive (here :: trail) child) → motive trail here) (trail : List Stop) (here : Stop) :
    motive trail here := by
  induction trail, here using descend.induct files with
  | case1 trail here ihfolder ihlink =>
    apply step
    intro child h
    cases h with
    | folder hentry =>
      exact ihfolder _ hentry
    | link hentry hpath htarget hopen =>
      exact ihlink _ _ (isDirectoryAt_iff.mp htarget) hopen

theorem opens_of_mem_suffix {first : Stop} (h : ReflTransGen files.Opens [first] stops)
    {stop : Stop} (hstop : stop ∈ stops) :
    ∃ outer, ReflTransGen files.Opens [first] (stop :: outer) := by
  induction h with
  | refl =>
    obtain rfl := List.mem_singleton.mp hstop
    exact ⟨[], .refl⟩
  | @tail middle last hrun hstep ih =>
    obtain ⟨_, _, child, _, rfl⟩ := hstep.exists_child
    cases hstop with
    | head => exact ⟨middle, hrun.tail hstep⟩
    | tail _ hmem => exact ih hmem

/-- Whether the limits on paths do not keep any path that is met from leading anywhere. -/
def WithinLimitFrom (files : FileSystem) (stops : List Stop) : Prop :=
  ∀ ⦃here trail name⦄, ReflTransGen files.Opens stops (here :: trail) →
    name ∈ files.sortedNames here.location → files.WithinLimit (here.path.join ⟨name⟩)

theorem WithinLimitFrom.opens {next : List Stop} (h : files.WithinLimitFrom stops)
    (hopens : files.Opens stops next) : files.WithinLimitFrom next :=
  fun _ _ _ hrun hname ↦ h (.head hopens hrun) hname

/-! ## Descents -/

/-- What is met at one entry of a directory and below it. -/
def descendEntry (files : FileSystem) (root : Path) (trail : List Stop) (here : Stop)
    (name : Text) : List Encounter :=
  let path := here.path.join ⟨name⟩
  let location := name :: here.location
  match files.contentAt? location with
  | none => []
  | some (.file _) => Encounter.ofFile files path
  | some .directory =>
    match files.locateDirectory path with
    | .error reason => [.skipped (.unreadableBelow root path reason)]
    | .ok _ => files.descend root (here :: trail) ⟨path, location⟩
  | some (.link _) =>
    match files.locate path with
    | .error reason => [.skipped (.unreadableBelow root path reason)]
    | .ok target =>
      match files.contentAt? target with
      | some .directory =>
        match openAt? (here :: trail) target with
        | some ancestor => [.skipped (.loop root path ancestor.path)]
        | none => files.descend root (here :: trail) ⟨path, target⟩
      | some (.file _) => Encounter.ofFile files path
      | _ => []

theorem descend_eq (files : FileSystem) (root : Path) (trail : List Stop) (here : Stop) :
    files.descend root trail here =
      (files.sortedNames here.location).flatMap (files.descendEntry root trail here) := by
  rw [descend]
  congr 1
  funext name
  unfold descendEntry
  dsimp only
  split
  · simp_all
  · simp_all
  · rename_i hentry
    cases files.locateDirectory (here.path.join ⟨name⟩) with
    | error reason => simp only [hentry]
    | ok target => simp only [hentry]
  · rename_i hentry
    simp only [hentry]
    cases files.locate (here.path.join ⟨name⟩) with
    | error reason => rfl
    | ok target =>
      dsimp only
      split
      · rename_i htarget
        simp only [htarget]
        split <;> simp_all
      · simp_all
      · simp_all

/-- The path of an entry leads to the entry itself, unless the entry is a link. -/
theorem eq_or_link_of_locate (hfiles : files.WellFormed) (hstops : files.Located (here :: trail))
    (hname : name ∈ files.sortedNames here.location)
    (hpath : files.locate (here.path.join ⟨name⟩) = .ok target) :
    target = name :: here.location ∨
      ∃ path, files.contentAt? (name :: here.location) = some (.link path) := by
  obtain ⟨entry, hentry⟩ := mem_sortedNames_iff.mp hname
  have hleads := leads_of_locate hfiles hstops.head.1 hentry hpath
  cases entry with
  | file bytes => exact Or.inl (hleads.eq_of_not_link hfiles hentry fun _ ↦ Content.noConfusion)
  | directory => exact Or.inl (hleads.eq_of_not_link hfiles hentry fun _ ↦ Content.noConfusion)
  | link path => exact Or.inr ⟨path, hentry⟩

/-- What is met at an entry whose path leads to a file. -/
theorem descendEntry_of_file (hfiles : files.WellFormed) (hstops : files.Located (here :: trail))
    (hname : name ∈ files.sortedNames here.location)
    (hpath : files.locate (here.path.join ⟨name⟩) = .ok target)
    (htarget : files.contentAt? target = some (.file content)) :
    files.descendEntry root trail here name = Encounter.ofFile files (here.path.join ⟨name⟩) := by
  unfold descendEntry
  rcases eq_or_link_of_locate hfiles hstops hname hpath with rfl | ⟨path, hentry⟩
  · simp only [htarget]
  · simp only [hentry, hpath, htarget]

/-- What is met at an entry whose path leads to a directory. -/
theorem descendEntry_of_directory (root : Path) (hfiles : files.WellFormed)
    (hstops : files.Located (here :: trail)) (hname : name ∈ files.sortedNames here.location)
    (hpath : files.locate (here.path.join ⟨name⟩) = .ok target)
    (htarget : files.isDirectoryAt target = true) :
    (files.Opens (here :: trail) (⟨here.path.join ⟨name⟩, target⟩ :: here :: trail) ∧
      files.descendEntry root trail here name =
        files.descend root (here :: trail) ⟨here.path.join ⟨name⟩, target⟩) ∨
    (target ∈ (here :: trail).map Stop.location ∧
      Encounter.documents (files.descendEntry root trail here name) = []) := by
  have hcontent := isDirectoryAt_iff.mp htarget
  unfold descendEntry
  rcases eq_or_link_of_locate hfiles hstops hname hpath with rfl | ⟨path, hentry⟩
  · have hopened := locateDirectory_eq_ok_iff.mpr ⟨hpath, htarget⟩
    exact Or.inl ⟨.folder hcontent hopened, by simp only [hcontent, hopened]⟩
  · simp only [hentry, hpath, hcontent]
    cases hopen : openAt? (here :: trail) target with
    | none => exact Or.inl ⟨.link hentry hpath htarget hopen, rfl⟩
    | some stop =>
      refine Or.inr ⟨?_, rfl⟩
      have hlocation : stop.location = target := by simpa using List.find?_some hopen
      rw [← hlocation]
      exact List.mem_map_of_mem (List.mem_of_find?_eq_some hopen)

/-- Whether a path leads to neither a file nor a directory. -/
def LeadsNowhere (files : FileSystem) (path : Path) : Prop :=
  ∀ target, files.locate path = .ok target →
    files.isDirectoryAt target = false ∧ ∀ content, files.contentAt? target ≠ some (.file content)

/-- A path leads to a file, to a directory or to neither. -/
theorem locate_cases (files : FileSystem) (path : Path) :
    (∃ target content, files.locate path = .ok target ∧
      files.contentAt? target = some (.file content)) ∨
    (∃ target, files.locate path = .ok target ∧ files.isDirectoryAt target = true) ∨
    files.LeadsNowhere path := by
  by_cases hfile : ∃ target content, files.locate path = .ok target ∧
      files.contentAt? target = some (.file content)
  · exact Or.inl hfile
  · by_cases hdirectory : ∃ target, files.locate path = .ok target ∧
        files.isDirectoryAt target = true
    · exact Or.inr (Or.inl hdirectory)
    · refine Or.inr (Or.inr fun target hpath ↦ ⟨?_, fun content hcontent ↦ ?_⟩)
      · exact Bool.eq_false_iff.mpr fun htarget ↦ hdirectory ⟨target, hpath, htarget⟩
      · exact hfile ⟨target, content, hpath, hcontent⟩

theorem documents_descendEntry_of_leadsNowhere
    (hnowhere : files.LeadsNowhere (here.path.join ⟨name⟩)) :
    Encounter.documents (files.descendEntry root trail here name) = [] := by
  unfold descendEntry
  dsimp only
  split
  · rfl
  · cases hread : files.readFile (here.path.join ⟨name⟩) with
    | error reason => exact Encounter.documents_ofFile_of_error hread
    | ok content =>
      obtain ⟨target, hpath, htarget⟩ := readFile_eq_ok_iff.mp hread
      exact absurd htarget ((hnowhere target hpath).2 content)
  · split
    · rfl
    · rename_i target hopened
      obtain ⟨hpath, htarget⟩ := locateDirectory_eq_ok_iff.mp hopened
      rw [(hnowhere target hpath).1] at htarget
      cases htarget
  · cases hpath : files.locate (here.path.join ⟨name⟩) with
    | error reason => rfl
    | ok target =>
      obtain ⟨hneither, hfile⟩ := hnowhere target hpath
      dsimp only
      split
      · rename_i hcontent
        simp [isDirectoryAt, hcontent] at hneither
      · rename_i content hcontent
        exact absurd hcontent (hfile content)
      · rfl

/-- A directory that is opened is descended into at one of the entries. -/
theorem Opens.exists_entry (root : Path)
    (h : files.Opens (here :: trail) (child :: here :: trail)) :
    ∃ name ∈ files.sortedNames here.location,
      files.descendEntry root trail here name = files.descend root (here :: trail) child := by
  cases h with
  | @folder _ _ name _ hentry hpath =>
    refine ⟨name, mem_sortedNames_iff.mpr ⟨_, hentry⟩, ?_⟩
    unfold descendEntry
    simp only [hentry, hpath]
  | @link _ _ name path target hentry hpath htarget hopen =>
    have hcontent := isDirectoryAt_iff.mp htarget
    refine ⟨name, mem_sortedNames_iff.mpr ⟨_, hentry⟩, ?_⟩
    unfold descendEntry
    simp only [hentry, hpath, hcontent, hopen]

/-- Whether an entry of an open directory has the name of a document and its path leads to a file
with the given content. -/
def Shows (files : FileSystem) (here : Stop) (name : Text) (content : Bytes) : Prop :=
  name ∈ files.sortedNames here.location ∧
    Path.extensionOf? name = some Encounter.documentExtension ∧
    ∃ target, files.locate (here.path.join ⟨name⟩) = .ok target ∧
      files.contentAt? target = some (.file content)

theorem Shows.holds (hfiles : files.WellFormed) (hhere : files.locate here.path = .ok here.location)
    (h : files.Shows here name content) : files.Holds here.location name content := by
  obtain ⟨hname, hextension, target, hpath, htarget⟩ := h
  obtain ⟨entry, hentry⟩ := mem_sortedNames_iff.mp hname
  exact ⟨hextension, target, leads_of_locate hfiles hhere hentry hpath, htarget⟩

theorem Holds.shows (hfiles : files.WellFormed) (hhere : files.locate here.path = .ok here.location)
    (hlimit : files.WithinLimit (here.path.join ⟨name⟩))
    (h : files.Holds here.location name content) : files.Shows here name content := by
  obtain ⟨hextension, target, hleads, htarget⟩ := h
  refine ⟨mem_sortedNames_iff.mpr hleads.1, hextension, target, ?_, htarget⟩
  exact locate_of_leads hfiles hhere hlimit hleads

theorem extension?_entry (hfiles : files.WellFormed)
    (hhere : files.locate here.path = .ok here.location)
    (hname : name ∈ files.sortedNames here.location) :
    (here.path.join ⟨name⟩).extension? = Path.extensionOf? name := by
  obtain ⟨entry, hentry⟩ := mem_sortedNames_iff.mp hname
  exact extension?_join (spelling_ne_nil_of_locate hhere) (hfiles.isEntryName_of_contentAt? hentry)

/-- The documents of a descent are those in the directories that it opens. -/
theorem document_mem_descend_iff (hfiles : files.WellFormed) {path : Path}
    (hstops : files.Located (here :: trail)) :
    .document path content ∈ files.descend root trail here ↔
      ∃ inner outer name, ReflTransGen files.Opens (here :: trail) (inner :: outer) ∧
        files.Shows inner name content ∧ path = inner.path.join ⟨name⟩ := by
  constructor
  · intro hmem
    induction trail, here using opensInduction files with
    | step trail here ih =>
      rw [descend_eq] at hmem
      obtain ⟨name, hname, hmem⟩ := List.mem_flatMap.mp hmem
      have hdocument : Encounter.documents (files.descendEntry root trail here name) ≠ [] :=
        List.ne_nil_of_mem (Encounter.document_mem_documents.mpr hmem)
      obtain ⟨target, content', hpath, htarget⟩ | ⟨target, hpath, htarget⟩ | hnowhere :=
        files.locate_cases (here.path.join ⟨name⟩)
      · rw [descendEntry_of_file hfiles hstops hname hpath htarget,
          Encounter.document_mem_ofFile, extension?_entry hfiles hstops.head.1 hname] at hmem
        obtain ⟨hjoin, hread, hextension⟩ := hmem
        exact ⟨here, trail, name, .refl, ⟨hname, hextension, readFile_eq_ok_iff.mp hread⟩, hjoin⟩
      · cases descendEntry_of_directory root hfiles hstops hname hpath htarget with
        | inl hopens =>
          rw [hopens.2] at hmem
          obtain ⟨inner, outer, name', hrun, hshows⟩ :=
            ih _ hopens.1 (hstops.opens hfiles hopens.1) hmem
          exact ⟨inner, outer, name', .head hopens.1 hrun, hshows⟩
        | inr hloop => exact absurd hloop.2 hdocument
      · exact absurd (documents_descendEntry_of_leadsNowhere hnowhere) hdocument
  · intro h
    obtain ⟨inner, outer, name, hrun, ⟨hname, hextension, target, hpath, htarget⟩, rfl⟩ := h
    generalize hinit : here :: trail = stops at hrun hstops
    induction hrun using ReflTransGen.head_induction_on generalizing here trail with
    | refl =>
      cases hinit
      rw [descend_eq, List.mem_flatMap]
      refine ⟨name, hname, ?_⟩
      rw [descendEntry_of_file hfiles hstops hname hpath htarget, Encounter.document_mem_ofFile,
        extension?_entry hfiles hstops.head.1 hname]
      exact ⟨rfl, readFile_eq_ok_iff.mpr ⟨target, hpath, htarget⟩, hextension⟩
    | head hstep _ ih =>
      subst hinit
      obtain ⟨_, _, child, heq, rfl⟩ := hstep.exists_child
      cases heq
      obtain ⟨name', hname', hentry⟩ := hstep.exists_entry root
      rw [descend_eq, List.mem_flatMap]
      refine ⟨name', hname', ?_⟩
      rw [hentry]
      exact ih rfl (hstops.opens hfiles hstep)

theorem reaches_of_opens (hfiles : files.WellFormed) (hstops : files.Located (here :: trail))
    {inner : Stop} {outer : List Stop}
    (h : ReflTransGen files.Opens (here :: trail) (inner :: outer)) :
    files.Reaches here.location inner.location := by
  generalize hlast : inner :: outer = stops at h
  induction h generalizing inner outer with
  | refl =>
    cases hlast
    exact .start
  | tail hrun hstep ih =>
    obtain ⟨middle, between, child, rfl, rfl⟩ := hstep.exists_child
    cases hlast
    obtain ⟨_, hdirectory, name, _, hleads⟩ := hstep.leads hfiles (hstops.run hfiles hrun)
    exact .entry (ih rfl) hleads hdirectory

/-- Within the limits on paths, a descent opens every directory that is reached: a link that is
passed over leads to a directory that was opened before. -/
theorem exists_opens_of_reaches (hfiles : files.WellFormed) (hstops : files.Located [here])
    (hlimit : files.WithinLimitFrom [here]) (h : files.Reaches here.location target) :
    ∃ stop outer, stop.location = target ∧ ReflTransGen files.Opens [here] (stop :: outer) := by
  induction h with
  | start => exact ⟨here, [], rfl, .refl⟩
  | @entry directory target name _ hleads htarget ih =>
    obtain ⟨stop, outer, rfl, hrun⟩ := ih
    have hlocated := hstops.run hfiles hrun
    have hname : name ∈ files.sortedNames stop.location := mem_sortedNames_iff.mpr hleads.1
    have hpath := locate_of_leads hfiles hlocated.head.1 (hlimit hrun hname) hleads
    cases descendEntry_of_directory here.path hfiles hlocated hname hpath htarget with
    | inl hopens => exact ⟨_, _, rfl, hrun.tail hopens.1⟩
    | inr hloop =>
      -- the link is passed over, but what it leads to was opened on the way here
      obtain ⟨ancestor, hancestor, hlocation⟩ := List.mem_map.mp hloop.1
      obtain ⟨around, hopened⟩ := opens_of_mem_suffix hrun hancestor
      exact ⟨ancestor, around, hlocation, hopened⟩

/-- The documents of a descent are those in the directories that can be reached. -/
theorem exists_document_mem_descend_iff (root : Path) (content : Bytes)
    (hfiles : files.WellFormed) (hstops : files.Located [here])
    (hlimit : files.WithinLimitFrom [here]) :
    (∃ path, .document path content ∈ files.descend root [] here) ↔
      ∃ directory name, files.Reaches here.location directory ∧
        files.Holds directory name content := by
  constructor
  · intro h
    obtain ⟨path, hmem⟩ := h
    obtain ⟨inner, outer, name, hrun, hshows, _⟩ := (document_mem_descend_iff hfiles hstops).mp hmem
    exact ⟨inner.location, name, reaches_of_opens hfiles hstops hrun,
      hshows.holds hfiles (hstops.run hfiles hrun).head.1⟩
  · intro h
    obtain ⟨directory, name, hreaches, hholds⟩ := h
    obtain ⟨stop, outer, rfl, hrun⟩ := exists_opens_of_reaches hfiles hstops hlimit hreaches
    have hname : name ∈ files.sortedNames stop.location := by
      obtain ⟨_, _, hleads, _⟩ := hholds
      exact mem_sortedNames_iff.mpr hleads.1
    refine ⟨_, (document_mem_descend_iff hfiles hstops).mpr ⟨stop, outer, name, hrun, ?_, rfl⟩⟩
    exact hholds.shows hfiles (hstops.run hfiles hrun).head.1 (hlimit hrun hname)

end FileSystem

end DefCatalog
