import DefCatalog.Proofs.Scan.Discovery
import DefCatalog.Proofs.Scan.Touring

/-!
# What a scan covers

A scan finds what stands in the documents that can be reached from its folders, and nothing else,
however links lead from one directory to another. On a tour each document is read once, on a descent
at least once.
-/

namespace DefCatalog

open Relation

variable {files : FileSystem} {matching : Matching} {route : Route} {root : Path} {start : Location}

namespace FileSystem

variable {after : List Location} {sights : List Sight}

/-- Whether the documents of a list are those that can be reached from a directory, each once, by
paths that lead to their directories. -/
structure Surveys (files : FileSystem) (start : Location) (sights : List Sight) : Prop where
  nodup_entries : (sights.map Sight.entry).Nodup
  locate_eq : ∀ sight ∈ sights, files.locate sight.stop.path = .ok sight.stop.location
  mem_iff : ∀ directory name content,
    (∃ sight ∈ sights, sight.entry = (directory, name) ∧ sight.content = content) ↔
      files.Reaches start directory ∧ files.Holds directory name content

/-- Within the limits on paths, a tour is done with everything that can be reached. -/
theorem Tours.explored_of_reaches (hfiles : files.WellFormed)
    (hroot : files.locateDirectory root = .ok start)
    (hlimit : files.WithinLimitFrom [⟨root, start⟩])
    (h : files.Tours [start] [] ⟨root, start⟩ (files.sortedNames start) sights after)
    {directory : Location} (hreaches : files.Reaches start directory) (name : Text) :
    files.Explored after sights directory name := by
  have hall := h.explores hfiles (.ofRoot hfiles hroot) hlimit
  apply hall.of_entered _ List.not_mem_nil
  induction hreaches with
  | start => exact h.subset List.mem_cons_self
  | @entry directory target name' _ hleads htarget ih =>
    exact (hall.of_entered ih List.not_mem_nil name').listed target hleads htarget

theorem Tours.surveys (hfiles : files.WellFormed) (hroot : files.locateDirectory root = .ok start)
    (hlimit : files.WithinLimitFrom [⟨root, start⟩])
    (h : files.Tours [start] [] ⟨root, start⟩ (files.sortedNames start) sights after) :
    files.Surveys start sights := by
  have hunderway := Underway.ofRoot hfiles hroot
  have hlocated : ∀ sight ∈ sights, ∃ outer, files.Located (sight.stop :: outer) := by
    intro sight hsight
    obtain ⟨_, outer, hrun⟩ := h.opens hfiles hunderway hsight
    exact ⟨outer, hunderway.located.run hfiles hrun⟩
  refine ⟨h.nodup_entries hfiles hunderway, fun sight hsight ↦ ?_, fun directory name content ↦ ?_⟩
  · obtain ⟨outer, hstops⟩ := hlocated sight hsight
    exact hstops.head.1
  · constructor
    · intro hseen
      obtain ⟨sight, hsight, hentry, rfl⟩ := hseen
      obtain ⟨rfl, rfl⟩ : sight.stop.location = directory ∧ sight.name = name := Prod.mk.inj hentry
      obtain ⟨hshows, outer, hrun⟩ := h.opens hfiles hunderway hsight
      exact ⟨reaches_of_opens hfiles hunderway.located hrun,
        hshows.holds hfiles (hunderway.located.run hfiles hrun).head.1⟩
    · intro hreached
      exact (h.explored_of_reaches hfiles hroot hlimit hreached.1 name).seen content hreached.2

theorem descent_eq (hroot : files.locateDirectory root = .ok start) :
    files.descent root = files.descend root [] ⟨root, start⟩ := by
  obtain ⟨hpath, hstart⟩ := (located_of_locateDirectory hroot).head
  have hcontent := FileSystem.isDirectoryAt_iff.mp hstart
  unfold descent
  rw [hpath]
  dsimp only
  rw [hcontent]

/-- Both routes meet the documents that can be reached, and no other ones. -/
theorem exists_document_mem_encounters_iff (hfiles : files.WellFormed)
    (hroot : files.locateDirectory root = .ok start)
    (hlimit : files.WithinLimitFrom [⟨root, start⟩])
    (route : Route) (content : Bytes) :
    (∃ path, .document path content ∈ route.encounters files root) ↔
      ∃ directory name, files.Reaches start directory ∧ files.Holds directory name content := by
  cases route with
  | descent =>
    unfold Route.encounters
    rw [descent_eq hroot]
    exact exists_document_mem_descend_iff root content hfiles
      (located_of_locateDirectory hroot) hlimit
  | tour =>
    obtain ⟨sights, after, htours, hmet⟩ := exists_tours_root hroot
    have hsurveys := htours.surveys hfiles hroot hlimit
    have hdocument : ∀ path, .document path content ∈ files.tour root ↔
        .document path content ∈ sights.map Sight.encounter := by
      intro path
      rw [← hmet, Encounter.document_mem_documents]
    constructor
    · intro h
      obtain ⟨path, hmem⟩ := h
      obtain ⟨sight, hsight, hencounter⟩ := List.mem_map.mp ((hdocument path).mp hmem)
      have hcontent := (Encounter.document.inj hencounter).2
      exact ⟨_, _, (hsurveys.mem_iff _ _ _).mp ⟨sight, hsight, rfl, hcontent⟩⟩
    · intro h
      obtain ⟨directory, name, hreached⟩ := h
      obtain ⟨sight, hsight, _, rfl⟩ := (hsurveys.mem_iff directory name content).mpr hreached
      exact ⟨sight.path, (hdocument _).mpr (List.mem_map_of_mem hsight)⟩

end FileSystem

namespace Harvest

/-- What is found on a route is what is in the documents that can be reached. -/
theorem mem_found_iff (route : Route) (hfiles : files.WellFormed)
    (hroot : files.locateDirectory root = .ok start)
    (hlimit : files.WithinLimitFrom [⟨root, start⟩]) {d : Definition} :
    d ∈ found files matching route root ↔
      ∃ directory name content, files.Reaches start directory ∧
        files.Holds directory name content ∧
        d ∈ Markup.extract matching (Utf8.decodeLossy content) := by
  have hmet := FileSystem.exists_document_mem_encounters_iff hfiles hroot hlimit route
  unfold found
  rw [List.mem_flatMap]
  constructor
  · intro h
    obtain ⟨encounter, hencounter, hd⟩ := h
    cases encounter with
    | document path content =>
      obtain ⟨directory, name, hreaches, hholds⟩ := (hmet content).mp ⟨path, hencounter⟩
      exact ⟨directory, name, content, hreaches, hholds, hd⟩
    | unread path reason => cases hd
    | skipped reason => cases hd
  · intro h
    obtain ⟨directory, name, content, hreaches, hholds, hd⟩ := h
    obtain ⟨path, hencounter⟩ := (hmet content).mpr ⟨directory, name, hreaches, hholds⟩
    exact ⟨.document path content, hencounter, hd⟩

theorem files_reap (files : FileSystem) (matching : Matching) (route : Route) (root : Path)
    (catalog : Catalog) :
    (reap files matching route root catalog).value.files =
      (Encounter.documents (route.encounters files root)).length +
        (route.encounters files root).countP Encounter.isUnread :=
  Encounter.countP_isCounted _

theorem files_reap_tour (files : FileSystem) (matching : Matching) (root : Path)
    (catalog : Catalog) :
    (reap files matching .tour root catalog).value.files =
      (Encounter.documents (files.tour root)).length := by
  have hread : (files.tour root).countP Encounter.isUnread = 0 := by
    unfold FileSystem.tour
    split
    · rfl
    · exact FileSystem.countP_isUnread_tourFrom _ _ _
  rw [files_reap, Route.encounters, hread, Nat.add_zero]

end Harvest

namespace Scan

variable {cache : Option CacheFile} {strategy : Strategy} {after : FileSystem} {scanned : Scanned}

/-- A scan that comes to an end has filed what is found in its folders. -/
theorem catalog_of_run
    (h : (run files root cache matching strategy).value = (after, .ok scanned)) :
    scanned.catalog = Catalog.insertAll ∅ ((Folder.discover files root).value.flatMap fun folder ↦
      Harvest.found files matching strategy.route folder.path) := by
  obtain ⟨folders, hprepare, hcatalog, _⟩ := run_eq_ok h
  rw [hcatalog, value_prepare_eq_ok hprepare]

/-- Whoever scans, the names in the catalog are those in the documents that can be reached from the
folders. On a tour of a folder each of these documents is read once, on a descent no fewer are
read. -/
theorem covers_of_run (hfiles : files.WellFormed)
    (hlimit : ∀ folder ∈ (Folder.discover files root).value, ∀ start,
      files.locateDirectory folder.path = .ok start → files.WithinLimitFrom [⟨folder.path, start⟩])
    (hrun : (run files root cache matching strategy).value = (after, .ok scanned)) :
    (∀ kind name, name ∈ scanned.catalog.names kind ↔
      ∃ folder ∈ (Folder.discover files root).value, ∃ start,
        files.locateDirectory folder.path = .ok start ∧ ∃ directory entry content,
          files.Reaches start directory ∧ files.Holds directory entry content ∧
            ⟨Text.lower kind, name⟩ ∈ Markup.extract matching (Utf8.decodeLossy content)) ∧
      ∀ folder ∈ (Folder.discover files root).value, ∃ start sights,
        files.locateDirectory folder.path = .ok start ∧ files.Surveys start sights ∧
          Encounter.documents (files.tour folder.path) = sights.map Sight.encounter ∧
            ∀ catalog,
              (Harvest.reap files matching .tour folder.path catalog).value.files = sights.length ∧
                sights.length ≤
                  (Harvest.reap files matching .descent folder.path catalog).value.files := by
  refine ⟨fun kind name ↦ ?_, fun folder hfolder ↦ ?_⟩
  · rw [catalog_of_run hrun, Catalog.mem_names_insertAll]
    constructor
    · intro h
      obtain ⟨d, hd, hkind, rfl⟩ := h.resolve_left List.not_mem_nil
      obtain ⟨folder, hfolder, hfound⟩ := List.mem_flatMap.mp hd
      obtain ⟨start, hstart⟩ := Folder.exists_locateDirectory_of_mem_discover hfolder
      rw [Harvest.lower_kind_of_mem_found hfound] at hkind
      have hfolderlimit := hlimit folder hfolder start hstart
      rw [← hkind]
      exact ⟨folder, hfolder, start, hstart,
        (Harvest.mem_found_iff strategy.route hfiles hstart hfolderlimit).mp hfound⟩
    · intro h
      obtain ⟨folder, hfolder, start, hstart, hreached⟩ := h
      have hfound := (Harvest.mem_found_iff strategy.route hfiles hstart
        (hlimit folder hfolder start hstart)).mpr hreached
      exact Or.inr ⟨⟨Text.lower kind, name⟩, List.mem_flatMap.mpr ⟨folder, hfolder, hfound⟩,
        Harvest.lower_kind_of_mem_found hfound, rfl⟩
  · obtain ⟨start, hstart⟩ := Folder.exists_locateDirectory_of_mem_discover hfolder
    obtain ⟨sights, listed, htours, hmet⟩ := FileSystem.exists_tours_root hstart
    have hsurveys := htours.surveys hfiles hstart (hlimit folder hfolder start hstart)
    refine ⟨start, sights, hstart, hsurveys, hmet, fun catalog ↦ ⟨?_, ?_⟩⟩
    · rw [Harvest.files_reap_tour, hmet, List.length_map]
    · have hsublist := htours.sublist folder.path hfiles (.ofRoot hfiles hstart)
      calc
        sights.length = (sights.map Sight.encounter).length := (List.length_map _).symm
        _ ≤ (Encounter.documents (files.descent folder.path)).length := by
          rw [FileSystem.descent_eq hstart, FileSystem.descend_eq]
          exact hsublist.length_le
        _ ≤ (Harvest.reap files matching .descent folder.path catalog).value.files := by
          rw [Harvest.files_reap]
          exact Nat.le_add_right _ _

/-! ## A link out of a folder and back -/

/-- Where the documents of the sample should lie. -/
def coreDefs : Location :=
  ["Defs".toList, "Core".toList, "Data".toList, "i".toList]

def linkedDocument : Bytes :=
  Utf8.encode "<ThingDef Name=\"P\"></ThingDef>".toList

/-- An install root whose only document lies outside of it, behind a link. Beside the document,
another link leads back. -/
def linkedTree : FileSystem where
  nodes :=
    [([], ⟨.directory, ⟨0, 0⟩⟩), (["i".toList], ⟨.directory, ⟨0, 0⟩⟩),
      (["Data".toList, "i".toList], ⟨.directory, ⟨0, 0⟩⟩),
      (["Core".toList, "Data".toList, "i".toList], ⟨.directory, ⟨0, 0⟩⟩),
      (coreDefs, ⟨.directory, ⟨0, 0⟩⟩),
      ("out".toList :: coreDefs, ⟨.link (Path.ofString "/x"), ⟨0, 0⟩⟩),
      (["x".toList], ⟨.directory, ⟨0, 0⟩⟩),
      (["a.xml".toList, "x".toList], ⟨.file linkedDocument, ⟨0, 0⟩⟩),
      (["back".toList, "x".toList], ⟨.link (Path.ofString "/i/Data/Core/Defs"), ⟨0, 0⟩⟩)]
  working := []
  now := ⟨1000000000, 0⟩

def coreFolder : Folder :=
  ⟨Path.ofString "i/Data/Core/Defs", "Data/Core".toList⟩

/-- The folder and the directory behind the link. -/
def linkedStops : List Stop :=
  [⟨coreFolder.path / "out", ["x".toList]⟩, ⟨coreFolder.path, coreDefs⟩]

theorem wellFormed_linkedTree : linkedTree.WellFormed where
  nodup_locations := by decide
  isEntryName := by decide

theorem entry_linkedCore {name : Text} {content : Content}
    (h : linkedTree.contentAt? (name :: coreDefs) = some content) :
    name = "out".toList ∧ content = .link (Path.ofString "/x") := by
  have hmem := FileSystem.mem_locations_iff.mpr ⟨content, h⟩
  simp [linkedTree, coreDefs] at hmem
  subst hmem
  exact ⟨rfl, Option.some.inj (h.symm.trans (by decide))⟩

theorem entry_linkedTarget {name : Text} {content : Content}
    (h : linkedTree.contentAt? [name, "x".toList] = some content) :
    (name = "a.xml".toList ∧ ∃ bytes, content = .file bytes) ∨
      (name = "back".toList ∧ content = .link (Path.ofString "/i/Data/Core/Defs")) := by
  have hmem := FileSystem.mem_locations_iff.mpr ⟨content, h⟩
  simp [linkedTree, coreDefs] at hmem
  cases hmem with
  | inl hname =>
    subst hname
    exact Or.inl ⟨rfl, _, Option.some.inj (h.symm.trans rfl)⟩
  | inr hname =>
    subst hname
    exact Or.inr ⟨rfl, Option.some.inj (h.symm.trans (by decide))⟩

theorem locate_linkedOut :
    linkedTree.locate (coreFolder.path.join ⟨"out".toList⟩) = .ok ["x".toList] := by
  decide +kernel

theorem locate_linkedDocument :
    linkedTree.locate ((coreFolder.path / "out").join ⟨"a.xml".toList⟩) =
      .ok ["a.xml".toList, "x".toList] := by
  decide +kernel

theorem locate_linkedBack :
    linkedTree.locate ((coreFolder.path / "out").join ⟨"back".toList⟩) = .ok coreDefs := by
  decide +kernel

theorem opens_linkedCore {next : List Stop}
    (h : linkedTree.Opens [⟨coreFolder.path, coreDefs⟩] next) : next = linkedStops := by
  cases h with
  | folder hentry => cases (entry_linkedCore hentry).2
  | link hentry hpath htarget hopen =>
    obtain ⟨rfl, _⟩ := entry_linkedCore hentry
    rw [locate_linkedOut] at hpath
    cases hpath
    rfl

theorem not_opens_linkedStops {next : List Stop} : ¬linkedTree.Opens linkedStops next := by
  intro h
  cases h with
  | folder hentry =>
    obtain ⟨_, _, heq⟩ | ⟨_, heq⟩ := entry_linkedTarget hentry <;> cases heq
  | link hentry hpath htarget hopen =>
    obtain ⟨_, _, heq⟩ | ⟨rfl, _⟩ := entry_linkedTarget hentry
    · cases heq
    · rw [locate_linkedBack] at hpath
      cases hpath
      exact absurd hopen (by decide)

theorem stops_linkedTree {stops : List Stop}
    (h : ReflTransGen linkedTree.Opens [⟨coreFolder.path, coreDefs⟩] stops) :
    stops = [⟨coreFolder.path, coreDefs⟩] ∨ stops = linkedStops := by
  induction h with
  | refl => exact Or.inl rfl
  | tail _ hstep ih =>
    cases ih with
    | inl hfirst =>
      rw [hfirst] at hstep
      exact Or.inr (opens_linkedCore hstep)
    | inr hlast =>
      rw [hlast] at hstep
      exact absurd hstep not_opens_linkedStops

theorem withinLimit_linkedTree :
    linkedTree.WithinLimitFrom [⟨coreFolder.path, coreDefs⟩] := by
  intro here trail name hrun hname
  obtain ⟨content, hentry⟩ := FileSystem.mem_sortedNames_iff.mp hname
  cases stops_linkedTree hrun with
  | inl hfirst =>
    cases hfirst
    obtain ⟨rfl, _⟩ := entry_linkedCore hentry
    exact FileSystem.withinLimit_of_locate locate_linkedOut
  | inr hlast =>
    cases hlast
    obtain ⟨rfl, _⟩ | ⟨rfl, _⟩ := entry_linkedTarget hentry
    · exact FileSystem.withinLimit_of_locate locate_linkedDocument
    · exact FileSystem.withinLimit_of_locate locate_linkedBack

theorem reaches_linkedTarget : linkedTree.Reaches coreDefs ["x".toList] := by
  have hpath : linkedTree.locate coreFolder.path = .ok coreDefs := by decide
  have hentry : linkedTree.contentAt? ("out".toList :: coreDefs) =
      some (.link (Path.ofString "/x")) := by decide
  have hleads := FileSystem.leads_of_locate wellFormed_linkedTree hpath hentry locate_linkedOut
  exact .entry .start hleads (by decide)

theorem holds_linkedDocument :
    linkedTree.Holds ["x".toList] "a.xml".toList linkedDocument := by
  have hpath : linkedTree.locate (coreFolder.path / "out") = .ok ["x".toList] := locate_linkedOut
  have hentry : linkedTree.contentAt? ["a.xml".toList, "x".toList] =
      some (.file linkedDocument) := rfl
  exact ⟨by decide, _,
    FileSystem.leads_of_locate wellFormed_linkedTree hpath hentry locate_linkedDocument, hentry⟩

/-- The document behind the link is read, once, and its name is found. -/
theorem covers_of_run_linkedTree :
    (Folder.discover linkedTree (Path.ofString "i")).value = [coreFolder] ∧
      linkedTree.WithinLimitFrom [⟨coreFolder.path, coreDefs⟩] ∧
      ∃ scanned,
        (run linkedTree (Path.ofString "i") none .strict .cooperative).value =
          (linkedTree, .ok scanned) ∧
        "P".toList ∈ scanned.catalog.names "thing".toList ∧
        ∃ sights, linkedTree.Surveys coreDefs sights ∧
          (Harvest.reap linkedTree .strict .tour coreFolder.path ∅).value.files =
            sights.length := by
  have hprepare : (prepare linkedTree (Path.ofString "i")).value = .ok [coreFolder] := by
    decide +kernel
  have hfolders := value_prepare_eq_ok hprepare
  have hroot : linkedTree.locateDirectory coreFolder.path = .ok coreDefs := by decide
  have hrun := (run_of_prepare none .strict .cooperative hprepare).1
  rw [value_gather] at hrun
  have hlimit : ∀ folder ∈ (Folder.discover linkedTree (Path.ofString "i")).value, ∀ start,
      linkedTree.locateDirectory folder.path = .ok start →
        linkedTree.WithinLimitFrom [⟨folder.path, start⟩] := by
    intro folder hfolder start hstart
    rw [hfolders, List.mem_singleton] at hfolder
    subst hfolder
    rw [hroot] at hstart
    cases hstart
    exact withinLimit_linkedTree
  obtain ⟨hnames, hreads⟩ := covers_of_run wellFormed_linkedTree hlimit hrun
  refine ⟨hfolders, withinLimit_linkedTree, _, hrun, (hnames _ _).mpr ?_, ?_⟩
  · exact ⟨coreFolder, hfolders ▸ List.mem_singleton.mpr rfl, coreDefs, hroot, ["x".toList],
      "a.xml".toList, linkedDocument, reaches_linkedTarget, holds_linkedDocument, by decide +kernel⟩
  · obtain ⟨start, sights, hstart, hsurveys, _, hcount⟩ :=
      hreads coreFolder (hfolders ▸ List.mem_singleton.mpr rfl)
    rw [hroot] at hstart
    cases hstart
    exact ⟨sights, hsurveys, (hcount ∅).1⟩

/-- An install root with one document and no links. -/
def plainTree : FileSystem where
  nodes :=
    [([], ⟨.directory, ⟨0, 0⟩⟩), (["i".toList], ⟨.directory, ⟨0, 0⟩⟩),
      (["Data".toList, "i".toList], ⟨.directory, ⟨0, 0⟩⟩),
      (["Core".toList, "Data".toList, "i".toList], ⟨.directory, ⟨0, 0⟩⟩),
      (coreDefs, ⟨.directory, ⟨0, 0⟩⟩),
      ("a.xml".toList :: coreDefs, ⟨.file linkedDocument, ⟨0, 0⟩⟩)]
  working := []
  now := ⟨1000000000, 0⟩

theorem wellFormed_plainTree : plainTree.WellFormed where
  nodup_locations := by decide
  isEntryName := by decide

theorem contentAt?_plainTree_ne_link (location : Location) (target : Path) :
    plainTree.contentAt? location ≠ some (.link target) := by
  intro hlink
  have hnone : ∀ entry ∈ plainTree.nodes, ∀ target, entry.2.content ≠ .link target := by
    simp [plainTree]
  obtain ⟨node, hnode, hcontent⟩ := Option.map_eq_some_iff.mp hlink
  obtain ⟨entry, hentry, rfl⟩ := Option.map_eq_some_iff.mp hnode
  exact hnone entry (List.mem_of_find?_eq_some hentry) target hcontent

/-- The place of the only folder of documents in that tree. -/
def corePlace : Folder.Place :=
  .data "Core".toList

/-- Whether a root is that of the tree, spelled in so many bytes that there is room behind it for the
names on the way to the folder, but not for that of the document. -/
structure IsPacked (root : Path) : Prop where
  stepsAlike : root.StepsAlike (Path.ofString "i")
  size_eq : root.size = 4075

theorem prepare_plainTree :
    (prepare plainTree (Path.ofString "i")).value = .ok [coreFolder] := by
  decide +kernel

theorem sortedNames_plainTree : plainTree.sortedNames coreDefs = ["a.xml".toList] := by
  decide +kernel

namespace IsPacked

theorem dotted : IsPacked ((Path.ofString "i").dotted 2037) where
  stepsAlike := Path.stepsAlike_dotted ⟨by decide, by decide⟩ 2037
  size_eq := Path.size_dotted _ _

theorem size_below (h : IsPacked root) {names : List Text}
    (hnames : ∀ name ∈ names, FileSystem.IsEntryName name) :
    (root.below names).size = 4075 + Path.sizeOfNames names := by
  rw [Path.size_below h.stepsAlike.isOpen_left hnames, h.size_eq]

/-- What leads to a directory from the root as it is spelled shortest does so from this one. -/
theorem locate_below (h : IsPacked root) {names : List Text} {directory : Location}
    (hnames : ∀ name ∈ names, FileSystem.IsEntryName name)
    (hlocate : plainTree.locate ((Path.ofString "i").below names) = .ok directory)
    (hdirectory : plainTree.isDirectoryAt directory = true)
    (hroom : Path.sizeOfNames names ≤ 20) :
    plainTree.locate (root.below names) = .ok directory := by
  have hshort : (root.below names).isTooLong = false := Path.isTooLong_eq_false_iff.mpr
    ((h.size_below hnames).trans_le (Nat.add_le_add_left hroom 4075))
  exact FileSystem.locate_of_stepsAlike (h.stepsAlike.below hnames) hshort hlocate hdirectory

theorem locateDirectory_folder (h : IsPacked root) :
    plainTree.locateDirectory (corePlace.folder root).path = .ok coreDefs :=
  FileSystem.locateDirectory_eq_ok_iff.mpr
    ⟨h.locate_below (by decide) (by decide) rfl (by decide), rfl⟩

theorem locate_document (h : IsPacked root) :
    plainTree.locate ((corePlace.folder root).path.join ⟨"a.xml".toList⟩) =
      .error .nameTooLong := by
  have hsum : Path.sizeOfNames (corePlace.names ++ ["a.xml".toList]) = 21 := by decide
  have hnames : ∀ name ∈ corePlace.names ++ ["a.xml".toList], FileSystem.IsEntryName name := by
    decide
  have hsize := h.size_below hnames
  rw [hsum] at hsize
  have hlong : 4095 < 4075 + 21 := by decide
  exact FileSystem.locate_of_isTooLong (Path.isTooLong_iff.mpr (hlong.trans_eq hsize.symm))

theorem stands_iff (h : IsPacked root) {place : Folder.Place} :
    place.Stands plainTree root ↔ place = corePlace := by
  have hplain : corePlace.Stands plainTree (Path.ofString "i") :=
    ⟨by decide, by decide, by decide, by decide, by decide, by decide, trivial⟩
  constructor
  · intro hstands
    have hsize : ((Path.ofString "i").below place.names).size ≤ Path.maxBytes := by
      have hroom := hstands.size_le wellFormed_plainTree
      rw [h.size_below hstands.isEntryName] at hroom
      rw [Path.size_below h.stepsAlike.isOpen_right hstands.isEntryName]
      exact (Nat.add_le_add_right (by decide) _).trans hroom
    have hfound : place.Stands plainTree (Path.ofString "i") :=
      Folder.LeadsThrough.of_stepsAlike h.stepsAlike.symm hsize hstands
    have hmem : place.folder (Path.ofString "i") ∈
        (Folder.discover plainTree (Path.ofString "i")).value := by
      rw [Folder.value_discover]
      exact List.mem_map_of_mem ((Folder.mem_places_iff wellFormed_plainTree).mpr hfound)
    rw [value_prepare_eq_ok prepare_plainTree, List.mem_singleton] at hmem
    exact Folder.eq_of_components_folder hfound hplain (by rw [hmem]; rfl)
  · rintro rfl
    have hsize : (root.below corePlace.names).size ≤ Path.maxBytes := by
      rw [h.size_below (by decide)]
      decide
    exact Folder.LeadsThrough.of_stepsAlike h.stepsAlike hsize hplain

theorem discover_eq (h : IsPacked root) :
    (Folder.discover plainTree root).value = [corePlace.folder root] := by
  apply (Folder.lists_discover wellFormed_plainTree root).unique
  refine ⟨⟨[corePlace], rfl, List.pairwise_singleton _ _, fun place ↦ ?_⟩, List.nodup_singleton _⟩
  rw [List.mem_singleton, h.stands_iff]

/-- A tour passes over the document. -/
theorem tour_eq (h : IsPacked root) : plainTree.tour (corePlace.folder root).path =
    [.skipped (.unreadable ((corePlace.folder root).path.join ⟨"a.xml".toList⟩) .nameTooLong)] := by
  unfold FileSystem.tour FileSystem.listing
  rw [h.locateDirectory_folder]
  dsimp only
  rw [sortedNames_plainTree, List.map_singleton, FileSystem.tourFrom_cons, h.locate_document]
  dsimp only
  rw [FileSystem.tourFrom]

/-- A descent lists the document and fails to read it. -/
theorem descent_eq (h : IsPacked root) : plainTree.descent (corePlace.folder root).path =
    [.unread ((corePlace.folder root).path.join ⟨"a.xml".toList⟩) .nameTooLong] := by
  rw [FileSystem.descent_eq h.locateDirectory_folder, FileSystem.descend_eq, sortedNames_plainTree,
    List.flatMap_singleton]
  have hextension : ((corePlace.folder root).path.join ⟨"a.xml".toList⟩).extension? =
      some Encounter.documentExtension := by
    have hspelling := FileSystem.spelling_ne_nil_of_locate
      (FileSystem.locateDirectory_eq_ok_iff.mp h.locateDirectory_folder).1
    rw [FileSystem.extension?_join hspelling (by decide)]
    decide
  have hread : plainTree.readFile ((corePlace.folder root).path.join ⟨"a.xml".toList⟩) =
      .error .nameTooLong := by
    unfold FileSystem.readFile FileSystem.stat
    rw [h.locate_document]
  calc
    plainTree.descendEntry (corePlace.folder root).path [] ⟨(corePlace.folder root).path, coreDefs⟩
        "a.xml".toList =
        Encounter.ofFile plainTree ((corePlace.folder root).path.join ⟨"a.xml".toList⟩) := rfl
    _ = [.unread ((corePlace.folder root).path.join ⟨"a.xml".toList⟩) .nameTooLong] := by
      rw [Encounter.ofFile, if_pos hextension, hread]

theorem found_eq (h : IsPacked root) (matching : Matching) (route : Route) :
    Harvest.found plainTree matching route (corePlace.folder root).path = [] := by
  cases route with
  | tour => exact congrArg (List.flatMap (Encounter.definitions matching)) h.tour_eq
  | descent => exact congrArg (List.flatMap (Encounter.definitions matching)) h.descent_eq

end IsPacked

/-- Without any links, a document that can be reached is still not read if its path is too long. -/
theorem not_covers_of_long_path :
    ¬∀ (files after : FileSystem) (root : Path) (cache : Option CacheFile) (matching : Matching)
      (strategy : Strategy) (scanned : Scanned), files.WellFormed →
      (∀ location target, files.contentAt? location ≠ some (.link target)) →
      (run files root cache matching strategy).value = (after, .ok scanned) →
      ∀ kind name, name ∈ scanned.catalog.names kind ↔
        ∃ folder ∈ (Folder.discover files root).value, ∃ start,
          files.locateDirectory folder.path = .ok start ∧ ∃ directory entry content,
            files.Reaches start directory ∧ files.Holds directory entry content ∧
              ⟨Text.lower kind, name⟩ ∈ Markup.extract matching (Utf8.decodeLossy content) := by
  intro hall
  have hpacked := IsPacked.dotted
  generalize (Path.ofString "i").dotted 2037 = root at hpacked
  have hroot : plainTree.locate root = .ok ["i".toList] :=
    hpacked.locate_below (List.forall_mem_nil _) (by decide) rfl (by decide)
  have hexists : plainTree.pathExists root = true :=
    FileSystem.pathExists_iff.mpr ⟨_, _, hroot, rfl⟩
  have hprepare : (prepare plainTree root).value = .ok [corePlace.folder root] :=
    value_prepare_eq_ok_iff.mpr
      ⟨hexists, by rw [hpacked.discover_eq]; exact List.cons_ne_nil _ _, hpacked.discover_eq.symm⟩
  have hrun := (run_of_prepare none .loose .cooperative hprepare).1
  rw [value_gather, List.flatMap_singleton, hpacked.found_eq] at hrun
  have hholds : plainTree.Holds coreDefs "a.xml".toList linkedDocument :=
    ⟨by decide, _, ⟨⟨_, rfl⟩, 0, 0, FileSystem.walk_entry wellFormed_plainTree rfl rfl
      (fun _ ↦ Content.noConfusion) 0⟩, rfl⟩
  have hnamed := (hall plainTree _ root none .loose .cooperative _ wellFormed_plainTree
    contentAt?_plainTree_ne_link hrun "thing".toList "P".toList).mpr
      ⟨_, hpacked.discover_eq ▸ List.mem_singleton.mpr rfl, coreDefs,
        hpacked.locateDirectory_folder, coreDefs, _, _, .start, hholds, by decide +kernel⟩
  exact List.not_mem_nil hnamed

end Scan

end DefCatalog
