import DefCatalog.Files.Step
import DefCatalog.Proofs.Files.Ancestors
import DefCatalog.Proofs.Files.Asking

/-!
# The same contents

Where a path leads, and which directories are made by some steps, depends on what stands where, and
not on the time or on when something was changed.
-/

namespace DefCatalog.FileSystem

variable {files after before : FileSystem} {location : Location} {path : Path}

theorem isDirectory_iff : files.isDirectory path = true ↔
    ∃ location, files.locate path = .ok location ∧ files.isDirectoryAt location = true := by
  unfold isDirectory stat isDirectoryAt contentAt?
  cases files.locate path with
  | error reason => simp
  | ok location => cases hnode : files.get? location <;> simp [hnode]

theorem pathExists_iff : files.pathExists path = true ↔
    ∃ location content, files.locate path = .ok location ∧
      files.contentAt? location = some content := by
  unfold pathExists stat contentAt?
  cases files.locate path with
  | error reason => simp
  | ok location => cases hnode : files.get? location <;> simp [hnode]

/-- Whether the same stands everywhere, whenever it was changed. -/
structure SameContents (after before : FileSystem) : Prop where
  contentAt?_eq : ∀ location, after.contentAt? location = before.contentAt? location
  working_eq : after.working = before.working

theorem sameContents_at (files : FileSystem) (time : Instant) :
    SameContents { files with now := time } files :=
  ⟨fun _ ↦ rfl, rfl⟩

namespace SameContents

theorem symm (h : SameContents after before) : SameContents before after :=
  ⟨fun location ↦ (h.contentAt?_eq location).symm, h.working_eq.symm⟩

theorem isDirectoryAt_eq (h : SameContents after before) (location : Location) :
    after.isDirectoryAt location = before.isDirectoryAt location :=
  isDirectoryAt_congr (h.contentAt?_eq location)

theorem walk_eq (h : SameContents after before) (links : Nat) (place : Location)
    (segments : List Text) :
    after.walk true links place segments = before.walk true links place segments :=
  walk_congr fun location _ ↦ h.contentAt?_eq location

theorem locate_eq (h : SameContents after before) (path : Path) :
    after.locate path = before.locate path := by
  unfold locate locateWith
  rw [h.working_eq, h.walk_eq]

theorem isDirectory_eq (h : SameContents after before) (path : Path) :
    after.isDirectory path = before.isDirectory path := by
  rw [Bool.eq_iff_iff, isDirectory_iff, isDirectory_iff]
  simp only [h.locate_eq, h.isDirectoryAt_eq]

theorem pathExists_eq (h : SameContents after before) (path : Path) :
    after.pathExists path = before.pathExists path := by
  rw [Bool.eq_iff_iff, pathExists_iff, pathExists_iff]
  simp only [h.locate_eq, h.contentAt?_eq]

theorem lastStep_eq (h : SameContents after before) (path : Path) :
    after.lastStep path = before.lastStep path := by
  unfold lastStep lastStepFrom
  rw [h.working_eq]
  simp only [h.walk_eq, h.isDirectoryAt_eq]

theorem entry?_eq (h : SameContents after before) (path : Path) :
    after.entry? path = before.entry? path := by
  unfold entry?
  rw [h.lastStep_eq]

theorem standsAt_eq (h : SameContents after before) (path : Path) :
    after.standsAt path = before.standsAt path := by
  unfold standsAt
  rw [h.entry?_eq, funext h.contentAt?_eq]

theorem isTree (h : SameContents after before) (htree : before.IsTree) : after.IsTree := by
  rw [isTree_iff] at htree ⊢
  intro name directory content hcontent
  rw [h.isDirectoryAt_eq]
  exact htree name directory content (h.contentAt?_eq _ ▸ hcontent)

/-- The same directory is made, or none for the same reason. -/
theorem makeDirectory_cases (h : SameContents after before) (path : Path) :
    (∃ reason, after.makeDirectory path = .error reason ∧
      before.makeDirectory path = .error reason) ∨
    ∃ madeAfter madeBefore, after.makeDirectory path = .ok madeAfter ∧
      before.makeDirectory path = .ok madeBefore ∧ SameContents madeAfter madeBefore := by
  simp only [makeDirectory, bind, Except.bind, h.lastStep_eq]
  cases checkLength path with
  | error reason => exact Or.inl ⟨reason, rfl, rfl⟩
  | ok _ =>
    cases before.lastStep path with
    | error reason => exact Or.inl ⟨reason, rfl, rfl⟩
    | ok step =>
      obtain ⟨directory, name?, slashed, left⟩ := step
      cases name? with
      | none => exact Or.inl ⟨_, rfl, rfl⟩
      | some name =>
        have hentry := h.contentAt?_eq (name :: directory)
        unfold contentAt? at hentry
        cases hbefore : before.get? (name :: directory) with
        | some node =>
          rw [hbefore] at hentry
          obtain ⟨other, hafter, _⟩ := Option.map_eq_some_iff.mp hentry
          simp only [hafter, hbefore]
          exact Or.inl ⟨_, rfl, rfl⟩
        | none =>
          have hafter : after.get? (name :: directory) = none := by simpa [hbefore] using hentry
          simp only [hafter, hbefore]
          refine Or.inr ⟨_, _, rfl, rfl, fun location ↦ ?_, h.working_eq⟩
          unfold setContent
          by_cases hlocation : location = name :: directory
          · rw [hlocation, contentAt?_set, contentAt?_set]
          · rw [contentAt?_set_of_ne _ hlocation, contentAt?_set_of_ne _ hlocation,
              h.contentAt?_eq]

theorem lacksParent_eq (h : SameContents after before) (path : Path) :
    FileStep.lacksParent after path = FileStep.lacksParent before path := by
  unfold FileStep.lacksParent
  rcases h.makeDirectory_cases path with ⟨reason, hafter, hbefore⟩ |
    ⟨madeAfter, madeBefore, hafter, hbefore, _⟩
  · rw [hafter, hbefore]
  · rw [hafter, hbefore]

theorem makeDirectories_eq (h : SameContents after before) (path : Path) :
    FileStep.makeDirectories after path = FileStep.makeDirectories before path := by
  unfold FileStep.makeDirectories
  rw [funext h.lacksParent_eq]

theorem runAll_ensure (h : SameContents after before) (paths : List Path) :
    SameContents (FileStep.runAll after (paths.map .ensureDirectory)).1
      (FileStep.runAll before (paths.map .ensureDirectory)).1 := by
  induction paths generalizing after before with
  | nil => exact h
  | cons path paths ih =>
    simp only [List.map_cons, FileStep.runAll, FileStep.run]
    rcases h.makeDirectory_cases path with ⟨reason, hafter, hbefore⟩ |
      ⟨madeAfter, madeBefore, hafter, hbefore, hmade⟩
    · rw [hafter, hbefore]
      dsimp only
      rw [h.isDirectory_eq]
      cases before.isDirectory path with
      | true => exact ih h
      | false => exact h
    · rw [hafter, hbefore]
      exact ih hmade

end SameContents

end DefCatalog.FileSystem
