import DefCatalog.Proofs.Files.Ancestors
import DefCatalog.Scan.Run
import Mathlib.Data.List.Nodup

/-!
# What changes leave in order

A table of locations that stands for a tree of names goes on to do so, whatever is made, written,
renamed or removed: a change is made at the last step of a path, and that step is a name.
-/

namespace DefCatalog

namespace FileSystem

variable {files after : FileSystem} {links : Nat} {directory location : Location} {path : Path}
  {name : Text}

namespace WellFormed

theorem erase (h : files.WellFormed) (location : Location) : (files.erase location).WellFormed := by
  have hsublist : List.Sublist ((files.erase location).nodes.map Prod.fst)
      (files.nodes.map Prod.fst) := List.filter_sublist.map Prod.fst
  exact ⟨h.nodup_locations.sublist hsublist,
    fun place hplace ↦ h.isEntryName place (hsublist.subset hplace)⟩

theorem set (h : files.WellFormed) (hlocation : ∀ name ∈ location.head?, IsEntryName name)
    (node : Node) : (files.set location node).WellFormed := by
  have hrest := h.erase location
  constructor
  · refine List.nodup_cons.mpr ⟨fun hmem ↦ ?_, hrest.nodup_locations⟩
    obtain ⟨entry, hentry, heq⟩ := List.mem_map.mp hmem
    simpa [heq] using (List.mem_filter.mp hentry).2
  · exact List.forall_mem_cons.mpr ⟨hlocation, hrest.isEntryName⟩

theorem setContent (h : files.WellFormed) (hname : IsEntryName name) (directory : Location)
    (content : Content) : (files.setContent (name :: directory) content).WellFormed := by
  apply h.set
  intro other hother
  rwa [← Option.some.inj hother]

end WellFormed

theorem isEntryName_of_lastStepFrom {step : LastStep}
    (h : files.lastStepFrom links directory path = .ok step) (hname : step.name? = some name) :
    IsEntryName name := by
  obtain ⟨before, count, hsegments, hstep, _⟩ := lastStepFrom_cases h hname
  have hmem : name ∈ Text.splitOn '/' path.spelling := by simp [hsegments]
  exact ⟨hstep, Text.not_mem_of_mem_splitOn hmem⟩

theorem exists_entry_of_writeLocation
    (h : files.writeLocation links directory path = .ok location) :
    ∃ name parent, location = name :: parent ∧ IsEntryName name := by
  induction links using Nat.strongRecOn generalizing directory path with
  | ind links ih =>
    obtain ⟨before, name, parent, left, hsegments, hname, hwalk, _, hplace⟩ := writeLocation_cases h
    cases hplace with
    | inl hentry =>
      have hmem : name ∈ Text.splitOn '/' path.spelling := by simp [hsegments]
      exact ⟨name, parent, hentry.1, hname, Text.not_mem_of_mem_splitOn hmem⟩
    | inr hlink =>
      obtain ⟨target, fewer, _, _, hfewer, hnext⟩ := hlink
      exact ih fewer hfewer hnext

namespace WellFormed

variable {source target : Path} {bytes : Bytes}

theorem makeDirectory (h : files.WellFormed) (hmake : files.makeDirectory path = .ok after) :
    after.WellFormed := by
  obtain ⟨before, name, directory, hsteps, hname, _, _, rfl⟩ := makeDirectory_eq_ok hmake
  have hmem : name ∈ path.steps := by simp [hsteps]
  exact h.setContent ⟨hname, Text.not_mem_of_mem_splitOn (List.mem_filter.mp hmem).1⟩ directory
    .directory

theorem writeFile (h : files.WellFormed) (hwrite : files.writeFile path bytes = .ok after) :
    after.WellFormed := by
  obtain ⟨location, hlocation, rfl⟩ := writeFile_eq_ok hwrite
  obtain ⟨name, parent, rfl, hname⟩ := exists_entry_of_writeLocation hlocation
  exact h.setContent hname parent (.file bytes)

theorem rename (h : files.WellFormed) (hrename : files.rename source target = .ok after) :
    after.WellFormed := by
  obtain ⟨_, _, _, targetName, targetDirectory, _, node, _, htarget, _, _, _, rfl⟩ :=
    rename_cases hrename
  apply (h.erase _).set
  intro name hname
  rw [← Option.some.inj hname]
  exact isEntryName_of_lastStepFrom htarget rfl

theorem removeFile (h : files.WellFormed) (hremove : files.removeFile path = .ok after) :
    after.WellFormed := by
  obtain ⟨_, location, _, _, _, _, rfl⟩ := removeFile_eq_ok_iff.mp hremove
  exact h.erase location

theorem step (h : files.WellFormed) {step : FileStep} (hstep : step.run files = .ok after) :
    after.WellFormed := by
  cases step with
  | ensureDirectory path =>
    rcases run_ensureDirectory_eq_ok hstep with hmake | rfl
    · exact h.makeDirectory hmake
    · exact h
  | write path bytes => exact h.writeFile hstep
  | rename source target => exact h.rename hstep

theorem runAll (h : files.WellFormed) (steps : List FileStep) :
    (FileStep.runAll files steps).1.WellFormed := by
  induction steps generalizing files with
  | nil => exact h
  | cons step steps ih =>
    unfold FileStep.runAll
    split
    · rename_i hstep
      exact ih (h.step hstep)
    · exact h

theorem save (h : files.WellFormed) (cache : CacheFile) (root : Path) (catalog : Catalog) :
    (cache.save files root catalog).value.1.WellFormed := by
  have hsteps := h.runAll (cache.saveSteps files (Snapshot.ofCatalog root files.now catalog))
  unfold CacheFile.save
  dsimp only
  split <;> simp_all

theorem clear (h : files.WellFormed) (cache : CacheFile) :
    (cache.clear files).value.1.WellFormed := by
  unfold CacheFile.clear
  split
  · rename_i hremove
    exact h.removeFile hremove
  · exact h
  · exact h

theorem run (h : files.WellFormed) (root : Path) (cache : Option CacheFile) (matching : Matching)
    (strategy : Strategy) : (Scan.run files root cache matching strategy).value.1.WellFormed := by
  unfold Scan.run
  rw [Noted.value_bind]
  split
  · exact h
  · rw [Noted.value_bind]
    split
    · exact h
    · rw [Noted.value_bind, Noted.value_bind]
      cases cache with
      | none => exact h
      | some cache => exact h.save cache root _

end WellFormed

end FileSystem

end DefCatalog
