import DefCatalog.Proofs.Scan.Coverage

/-!
# Where tours and descents agree

A tour passes over the directories that it has listed, a descent goes through them again. What it
meets there is known already, unless it gets there while they are still open: a link out of a folder
may lead to a directory around it, and from there the folder is entered a second time before the
rest of it has been read. Otherwise both routes leave the same catalog. Without links to directories
they read the same documents, but a descent also counts those that it lists and cannot read.
-/

namespace DefCatalog

open Relation

variable {files : FileSystem} {matching : Matching} {root : Path} {start : Location}

/-- A catalog after the definitions in what is met have been filed. -/
def Catalog.insertMet (matching : Matching) (catalog : Catalog) (met : List Encounter) : Catalog :=
  catalog.insertAll (met.flatMap (Encounter.definitions matching))

theorem Catalog.insertMet_append (catalog : Catalog) (first second : List Encounter) :
    catalog.insertMet matching (first ++ second) =
      (catalog.insertMet matching first).insertMet matching second := by
  rw [insertMet, List.flatMap_append, insertAll_append]
  rfl

theorem Catalog.insertMet_append_congr {catalog : Catalog}
    {first first' second second' : List Encounter}
    (hfirst : catalog.insertMet matching first = catalog.insertMet matching first')
    (hsecond : (catalog.insertMet matching first).insertMet matching second =
      (catalog.insertMet matching first).insertMet matching second') :
    catalog.insertMet matching (first ++ second) =
      catalog.insertMet matching (first' ++ second') :=
  calc
    catalog.insertMet matching (first ++ second) =
        (catalog.insertMet matching first).insertMet matching second :=
      catalog.insertMet_append first second
    _ = (catalog.insertMet matching first').insertMet matching second' := by rw [hsecond, hfirst]
    _ = catalog.insertMet matching (first' ++ second') :=
      (catalog.insertMet_append first' second').symm

theorem Catalog.insertMet_documents (catalog : Catalog) (met : List Encounter) :
    catalog.insertMet matching (Encounter.documents met) = catalog.insertMet matching met :=
  congrArg catalog.insertAll (Encounter.flatMap_definitions_documents matching met)

namespace FileSystem

variable {listed after : List Location} {trail : List Stop} {here : Stop} {name : Text}
  {names : List Text} {sights : List Sight} {catalog : Catalog} {directory target : Location}

/-! ## Directories that have been gone through -/

/-- Whether nothing new can come of a directory: what stands in its documents is filed, and the
directories to which its entries lead are listed. -/
structure Finished (files : FileSystem) (matching : Matching) (listed : List Location)
    (catalog : Catalog) (directory : Location) : Prop where
  filed : ∀ name content, files.Holds directory name content →
    ∀ d ∈ Markup.extract matching (Utf8.decodeLossy content), d.name ∈ catalog.names d.kind
  listed : ∀ name target, files.Leads directory name target → files.isDirectoryAt target = true →
    target ∈ listed

theorem Finished.mono (h : files.Finished matching listed catalog directory)
    (hlisted : listed ⊆ after) : files.Finished matching after catalog directory where
  filed := h.filed
  listed := fun name target hleads htarget ↦ hlisted (h.listed name target hleads htarget)

theorem Finished.insertAll (h : files.Finished matching listed catalog directory)
    (definitions : List Definition) :
    files.Finished matching listed (catalog.insertAll definitions) directory where
  filed := fun name content hholds d hd ↦
    Catalog.mem_names_insertAll.mpr (Or.inl (h.filed name content hholds d hd))
  listed := h.listed

/-- A directory is finished when a tour is done with its entries and what it has seen is filed. -/
theorem finished_of_explored (catalog : Catalog)
    (h : ∀ name, files.Explored listed sights directory name) :
    files.Finished matching listed (catalog.insertMet matching (sights.map Sight.encounter))
      directory where
  filed := by
    intro name content hholds d hd
    obtain ⟨sight, hsight, _, rfl⟩ := (h name).seen content hholds
    apply Catalog.mem_names_insertAll_of_mem
    exact List.mem_flatMap.mpr ⟨sight.encounter, List.mem_map_of_mem hsight, hd⟩
  listed := fun name target ↦ (h name).listed target

/-- Whether all directories that are listed and not open any more are finished. -/
def FinishedAround (files : FileSystem) (matching : Matching) (listed : List Location)
    (catalog : Catalog) (stops : List Stop) : Prop :=
  ∀ directory ∈ listed, directory ∉ stops.map Stop.location →
    files.Finished matching listed catalog directory

namespace FinishedAround

variable {stops : List Stop}

theorem insertAll (h : files.FinishedAround matching listed catalog stops)
    (definitions : List Definition) :
    files.FinishedAround matching listed (catalog.insertAll definitions) stops :=
  fun directory hlisted hopen ↦ (h directory hlisted hopen).insertAll definitions

theorem enter (h : files.FinishedAround matching listed catalog stops) (child : Stop) :
    files.FinishedAround matching (child.location :: listed) catalog (child :: stops) := by
  intro directory hmem hopen
  rw [List.map_cons, List.mem_cons, not_or] at hopen
  have hlisted : directory ∈ listed := (List.mem_cons.mp hmem).resolve_left hopen.1
  exact (h directory hlisted hopen.2).mono (List.subset_cons_self _ listed)

/-- When a directory is left, it is finished, and so is everything that was listed meanwhile. -/
theorem leave (h : files.FinishedAround matching listed catalog stops)
    (hexplores : files.Explores (target :: listed) after sights target (files.sortedNames target))
    (hsubset : listed ⊆ after) :
    files.FinishedAround matching after
      (catalog.insertMet matching (sights.map Sight.encounter)) stops := by
  intro directory hafter hopen
  by_cases hlisted : directory ∈ listed
  · exact ((h directory hlisted hopen).mono hsubset).insertAll _
  · exact finished_of_explored catalog (hexplores.of_entered hafter hlisted)

end FinishedAround

/-- Whether no directory is opened while it is open. -/
def OpensOnce (files : FileSystem) (stops : List Stop) : Prop :=
  ∀ ⦃next⦄, ReflTransGen files.Opens stops next → (next.map Stop.location).Nodup

theorem OpensOnce.opens {stops next : List Stop} (h : files.OpensOnce stops)
    (hopens : files.Opens stops next) : files.OpensOnce next :=
  fun _ hrun ↦ h (.head hopens hrun)

/-- From a finished directory only finished ones are opened, as long as none is opened while it is
open. -/
theorem finished_of_opens (hfiles : files.WellFormed) (hstops : files.Located (here :: trail))
    (honce : files.OpensOnce (here :: trail))
    (hfinished : files.FinishedAround matching listed catalog (here :: trail))
    {child inner : Stop} {outer : List Stop}
    (hopens : files.Opens (here :: trail) (child :: here :: trail))
    (hchild : child.location ∈ listed)
    (hrun : ReflTransGen files.Opens (child :: here :: trail) (inner :: outer)) :
    files.Finished matching listed catalog inner.location := by
  -- the directories around are open all the time, so they are not opened again
  have hnew : ∀ {stop stops}, ReflTransGen files.Opens (child :: here :: trail) (stop :: stops) →
      stop.location ∉ (here :: trail).map Stop.location := by
    intro stop stops hstop hmem
    have hsuffix : here :: trail <:+ stops := by
      cases List.suffix_cons_iff.mp (suffix_of_opens hstop) with
      | inl heq =>
        cases heq
        exact List.suffix_refl _
      | inr hinner => exact (List.suffix_cons child _).trans hinner
    have hnodup := honce (.head hopens hstop)
    rw [List.map_cons, List.nodup_cons] at hnodup
    exact hnodup.1 ((hsuffix.map Stop.location).subset hmem)
  have hlisted : inner.location ∈ listed := by
    generalize hlast : inner :: outer = stops at hrun
    induction hrun generalizing inner outer with
    | refl =>
      cases hlast
      exact hchild
    | tail hrun hstep ih =>
      obtain ⟨middle, between, next, rfl, rfl⟩ := hstep.exists_child
      cases hlast
      have hlocated := (hstops.opens hfiles hopens).run hfiles hrun
      obtain ⟨_, hdirectory, name, _, hleads⟩ := hstep.leads hfiles hlocated
      exact (hfinished _ (ih rfl) (hnew hrun)).listed name _ hleads hdirectory
  exact hfinished _ hlisted (hnew hrun)

/-- Going through a finished directory again changes nothing. -/
theorem insertMet_descend_of_finished (hfiles : files.WellFormed)
    (hstops : files.Located (here :: trail)) (honce : files.OpensOnce (here :: trail))
    (hfinished : files.FinishedAround matching listed catalog (here :: trail))
    {child : Stop} (hopens : files.Opens (here :: trail) (child :: here :: trail))
    (hchild : child.location ∈ listed) :
    catalog.insertMet matching (files.descend root (here :: trail) child) = catalog := by
  apply Catalog.insertAll_of_forall_mem
  intro d hd
  obtain ⟨encounter, hencounter, hmem⟩ := List.mem_flatMap.mp hd
  cases encounter with
  | skipped reason => cases hmem
  | unread path reason => cases hmem
  | document path content =>
    have hlocated := hstops.opens hfiles hopens
    obtain ⟨inner, outer, name, hrun, hshows, _⟩ :=
      (document_mem_descend_iff hfiles hlocated).mp hencounter
    have hinner := finished_of_opens hfiles hstops honce hfinished hopens hchild hrun
    exact hinner.filed name content
      (hshows.holds hfiles (hlocated.run hfiles hrun).head.1) d hmem

/-- Filing what a tour sees is filing what a descent meets, as long as no directory is opened while
it is open. -/
theorem Tours.insertMet_eq (root : Path) (hfiles : files.WellFormed)
    (h : files.Tours listed trail here names sights after)
    (hunderway : files.Underway listed trail here names)
    (hlimit : files.WithinLimitFrom (here :: trail)) (honce : files.OpensOnce (here :: trail))
    (catalog : Catalog)
    (hfinished : files.FinishedAround matching listed catalog (here :: trail)) :
    catalog.insertMet matching (sights.map Sight.encounter) =
      catalog.insertMet matching (names.flatMap (files.descendEntry root trail here)) := by
  induction h generalizing catalog with
  | nil => rfl
  | @file listed after trail here name names sights target content hpath htarget hrest ih =>
    have hbelow :
        catalog.insertMet matching ((Sight.ofFile here name content).map Sight.encounter) =
          catalog.insertMet matching (files.descendEntry root trail here name) := by
      rw [descendEntry_of_file hfiles hunderway.located hunderway.name_mem hpath htarget,
        ← Sight.documents_ofFile hpath htarget, Catalog.insertMet_documents]
    rw [List.map_append, List.flatMap_cons]
    exact Catalog.insertMet_append_congr hbelow
      (ih hunderway.tail hlimit honce _ (hfinished.insertAll _))
  | @enter listed between after trail here name names inner sights target hpath htarget hnew hinner
      hrest ihinner ih =>
    have hopens := hunderway.opens hfiles hpath htarget hnew
    have hentered := hunderway.enter hfiles hpath htarget hnew
    have hold := List.subset_of_cons_subset hinner.subset
    have hbelow : catalog.insertMet matching (inner.map Sight.encounter) =
        catalog.insertMet matching (files.descendEntry root trail here name) := by
      rw [hunderway.descendEntry_eq root hfiles hpath htarget hnew, descend_eq]
      exact ihinner hentered (hlimit.opens hopens) (honce.opens hopens) catalog
        (hfinished.enter ⟨here.path.join ⟨name⟩, target⟩)
    have hleft := hfinished.leave (hinner.explores hfiles hentered (hlimit.opens hopens)) hold
    rw [List.map_append, List.flatMap_cons]
    exact Catalog.insertMet_append_congr hbelow
      (ih (hunderway.tail.mono hold) hlimit honce _ hleft)
  | @revisit listed after trail here name names sights target hpath htarget hlisted hrest ih =>
    have hagain : catalog.insertMet matching [] =
        catalog.insertMet matching (files.descendEntry root trail here name) := by
      have hlocated := hunderway.located
      -- a directory that is listed is either finished or open, and then passed over by descents too
      cases descendEntry_of_directory root hfiles hlocated hunderway.name_mem hpath htarget with
      | inl hopens =>
        rw [hopens.2]
        exact (insertMet_descend_of_finished hfiles hlocated honce hfinished hopens.1 hlisted).symm
      | inr hloop =>
        rw [← catalog.insertMet_documents (files.descendEntry root trail here name), hloop.2]
    rw [List.flatMap_cons]
    exact Catalog.insertMet_append_congr hagain
      (ih hunderway.tail hlimit honce catalog hfinished)
  | @nowhere listed after trail here name names sights hnowhere hrest ih =>
    have hnothing : catalog.insertMet matching [] =
        catalog.insertMet matching (files.descendEntry root trail here name) := by
      rw [← catalog.insertMet_documents (files.descendEntry root trail here name),
        documents_descendEntry_of_leadsNowhere hnowhere]
    rw [List.flatMap_cons]
    exact Catalog.insertMet_append_congr hnothing
      (ih hunderway.tail hlimit honce catalog hfinished)

/-! ## Trees without links to directories -/

/-- Whether no link that is reached from a directory leads to a directory. -/
def NoDirectoryLinks (files : FileSystem) (start : Location) : Prop :=
  ∀ ⦃directory name path target⦄, files.Reaches start directory →
    files.contentAt? (name :: directory) = some (.link path) →
      files.Leads directory name target → files.isDirectoryAt target = false

theorem NoDirectoryLinks.target_eq (hfiles : files.WellFormed)
    (h : files.NoDirectoryLinks directory) (hleads : files.Leads directory name target)
    (htarget : files.isDirectoryAt target = true) : target = name :: directory := by
  obtain ⟨content, hentry⟩ := hleads.1
  apply hleads.eq_of_not_link hfiles hentry
  intro path hlink
  rw [hlink] at hentry
  rw [h .start hentry hleads] at htarget
  cases htarget

theorem eq_of_suffix {name' : Text} {location : Location} (h : name :: directory <:+ location)
    (h' : name' :: directory <:+ location) : name = name' := by
  have heq : name :: directory = name' :: directory :=
    (List.suffix_of_suffix_length_le h h' (Nat.le_refl _)).eq_of_length rfl
  exact (List.cons.inj heq).1

/-- Whether nothing that is listed lies at or below some entries of a directory. -/
def Apart (listed : List Location) (directory : Location) (names : List Text) : Prop :=
  ∀ name ∈ names, ∀ location ∈ listed, ¬name :: directory <:+ location

namespace Apart

theorem singleton (directory : Location) (names : List Text) :
    Apart [directory] directory names := by
  intro name _ location hmem hsuffix
  rw [List.mem_singleton.mp hmem] at hsuffix
  exact absurd hsuffix.length_le (Nat.not_succ_le_self _)

theorem tail (h : Apart listed directory (name :: names)) : Apart listed directory names :=
  fun other hother ↦ h other (List.mem_cons_of_mem name hother)

theorem enter (h : Apart listed directory (name :: names)) (inside : List Text) :
    Apart ((name :: directory) :: listed) (name :: directory) inside := by
  intro other hother location hmem hsuffix
  cases hmem with
  | head => exact singleton _ inside other hother _ (List.mem_singleton.mpr rfl) hsuffix
  | tail _ hlisted =>
    exact h name List.mem_cons_self location hlisted ((List.suffix_cons other _).trans hsuffix)

theorem leave (h : Apart listed directory (name :: names)) (hname : name ∉ names)
    (hbelow : ∀ location ∈ after, location ∈ listed ∨ name :: directory <:+ location) :
    Apart after directory names := by
  intro other hother location hmem hsuffix
  cases hbelow location hmem with
  | inl hlisted => exact h.tail other hother location hlisted hsuffix
  | inr hinside =>
    rw [← eq_of_suffix hinside hsuffix] at hother
    exact hname hother

end Apart

end FileSystem

namespace Harvest

/-- A tour leaves a catalog with the names that a descent leaves it with, and in the same order as
long as the descent opens no directory while it is open. -/
theorem catalog_tour_agrees (hfiles : files.WellFormed)
    (hroot : files.locateDirectory root = .ok start)
    (hlimit : files.WithinLimitFrom [⟨root, start⟩]) (matching : Matching) (catalog : Catalog) :
    (∀ kind name,
      name ∈ (reap files matching .tour root catalog).value.catalog.names kind ↔
        name ∈ (reap files matching .descent root catalog).value.catalog.names kind) ∧
      (files.OpensOnce [⟨root, start⟩] →
        (reap files matching .tour root catalog).value.catalog =
          (reap files matching .descent root catalog).value.catalog) := by
  rw [catalog_reap, catalog_reap]
  refine ⟨fun kind name ↦ ?_, fun honce ↦ ?_⟩
  · simp only [Catalog.mem_names_insertAll, mem_found_iff _ hfiles hroot hlimit]
  · obtain ⟨sights, after, htours, hmet⟩ := FileSystem.exists_tours_root hroot
    have hfinished : files.FinishedAround matching [start] catalog [⟨root, start⟩] :=
      fun directory hlisted hopen ↦ absurd hlisted hopen
    calc
      catalog.insertAll (found files matching .tour root) =
          catalog.insertMet matching (sights.map Sight.encounter) := by
        rw [← hmet, Catalog.insertMet_documents]
        rfl
      _ = catalog.insertMet matching (files.descend root [] ⟨root, start⟩) := by
        rw [FileSystem.descend_eq]
        exact htours.insertMet_eq root hfiles (.ofRoot hfiles hroot) hlimit honce catalog hfinished
      _ = catalog.insertAll (found files matching .descent root) := by
        rw [← FileSystem.descent_eq hroot]
        rfl

/-- A link that leads back to a folder from outside opens nothing a second time. -/
theorem catalog_tour_agrees_linkedTree :
    Scan.linkedTree.OpensOnce [⟨Scan.coreFolder.path, Scan.coreDefs⟩] ∧
      (reap Scan.linkedTree .loose .tour Scan.coreFolder.path ∅).value.catalog =
        (reap Scan.linkedTree .loose .descent Scan.coreFolder.path ∅).value.catalog := by
  have honce : Scan.linkedTree.OpensOnce [⟨Scan.coreFolder.path, Scan.coreDefs⟩] := by
    intro next hrun
    cases Scan.stops_linkedTree hrun with
    | inl hfirst =>
      rw [hfirst]
      decide
    | inr hlast =>
      rw [hlast]
      decide
  have hroot : Scan.linkedTree.locateDirectory Scan.coreFolder.path = .ok Scan.coreDefs := by
    decide
  exact ⟨honce, (catalog_tour_agrees Scan.wellFormed_linkedTree hroot Scan.withinLimit_linkedTree
    .loose ∅).2 honce⟩

end Harvest

namespace Scan

variable {cache : Option CacheFile} {strategy strategy' : Strategy}

end Scan

end DefCatalog
