import DefCatalog.Proofs.Scan.Reports

/-!
# What a scan comes to, with any cache

Whether a scan fails, which catalog it gathers and what it reports are all settled before the catalog
is to be saved. So a scan without a cache, one whose cache can be written and one whose cache cannot be
written come to the same: they fail with the same error, with nothing changed and nothing reported,
or they have the same catalog from the same folders and report once on each of these. Only the error
of saving tells them apart.
-/

namespace DefCatalog.Scan

variable {files : FileSystem} {root : Path} {matching : Matching} {strategy : Strategy}
  {cache : Option CacheFile} {folders : List Folder}

/-- The reports on some folders: each tells the position of a folder, the number of folders and the
name of the folder. -/
def reports (folders : List Folder) : List Progress :=
  folders.mapIdx fun before folder ↦ ⟨before + 1, folders.length, folder.name⟩

/-- Whether a scan fails with an error before it has changed or reported anything. -/
structure FailsWith (files : FileSystem) (error : ScanError)
    (scan : Noted (FileSystem × Except ScanError Scanned)) : Prop where
  value_eq : scan.value = (files, .error error)
  progress_eq : scan.progress = []

/-- Whether a scan has gathered a catalog from some folders, reported once on each of them, and tried
to save the catalog if there is a cache. -/
structure Gathers (files : FileSystem) (root : Path) (cache : Option CacheFile)
    (folders : List Folder) (catalog : Catalog)
    (scan : Noted (FileSystem × Except ScanError Scanned)) : Prop where
  answer : ∃ saveError, scan.value.2 = .ok ⟨catalog, folders.length, saveError⟩ ∧
    ∀ error, saveError = some error ↔
      ∃ store, cache = some store ∧ (store.save files root catalog).value.2 = some error
  progress_eq : scan.progress = reports folders
  unchanged : cache = none → scan.value.1 = files

theorem reportsFrom_eq (total finished : Nat) (folders : List Folder) :
    reportsFrom total finished folders =
      folders.mapIdx fun before folder ↦ ⟨finished + before + 1, total, folder.name⟩ := by
  induction folders generalizing finished with
  | nil => rfl
  | cons folder folders ih =>
    rw [reportsFrom, ih, List.mapIdx_cons]
    congr 1
    apply List.mapIdx_eq_mapIdx_iff.mpr
    intro before _
    simp only [Progress.mk.injEq, and_true]
    omega

theorem reportsFrom_eq_reports (folders : List Folder) :
    reportsFrom folders.length 0 folders = reports folders := by
  rw [reportsFrom_eq]
  unfold reports
  simp only [Nat.zero_add]

theorem failsWith_of_prepare_error {error : ScanError}
    (hprepare : (prepare files root).value = .error error) :
    FailsWith files error (run files root cache matching strategy) where
  value_eq := run_of_prepare_error hprepare
  progress_eq := progress_run_of_prepare_error hprepare

theorem saveError_keep_iff {catalog : Catalog} {error : CacheSaveError} :
    (keep files root cache catalog).value.2 = some error ↔
      ∃ store, cache = some store ∧ (store.save files root catalog).value.2 = some error := by
  cases cache with
  | none =>
    constructor
    · intro h
      cases h
    · rintro ⟨_, hstore, _⟩
      cases hstore
  | some store =>
    rw [value_keep_some]
    constructor
    · exact fun h ↦ ⟨store, rfl, h⟩
    · rintro ⟨_, hstore, h⟩
      cases hstore
      exact h

/-- A scan that has begun gathers everything, and after that only saving can fail. -/
theorem gathers_of_prepare (cache : Option CacheFile) (matching : Matching) (strategy : Strategy)
    (hprepare : (prepare files root).value = .ok folders) :
    Gathers files root cache folders
      (Catalog.insertAll ∅
        (folders.flatMap fun folder ↦ Harvest.found files matching strategy.route folder.path))
      (run files root cache matching strategy) := by
  obtain ⟨hvalue, hprogress⟩ := run_of_prepare cache matching strategy hprepare
  rw [value_gather, conclude_ok] at hvalue
  constructor
  case answer => exact ⟨_, congrArg Prod.snd hvalue, fun error ↦ saveError_keep_iff⟩
  case progress_eq => rw [hprogress, reportsFrom_eq_reports]
  case unchanged =>
    rintro rfl
    exact congrArg Prod.fst hvalue

/-- What a scan comes to does not depend on the cache, whatever the strategy. If the root is missing
or has no folders, it fails with the same error for each cache. Otherwise it gathers the same catalog
for each cache, from all folders that are found, and reports on them in their order; only a failure
to save shows, as the error of saving. -/
theorem run_with_any_cache (files : FileSystem) (root : Path) (matching : Matching)
    (strategy : Strategy) :
    let folders := (Folder.discover files root).value
    (files.pathExists root = false ∧
        ∀ cache, FailsWith files (.rootNotFound root) (run files root cache matching strategy)) ∨
      (files.pathExists root = true ∧ folders = [] ∧
        ∀ cache, FailsWith files (.noFolders root) (run files root cache matching strategy)) ∨
      (files.pathExists root = true ∧ 1 ≤ folders.length ∧ ∃ catalog,
        ∀ cache, Gathers files root cache folders catalog
          (run files root cache matching strategy)) := by
  intro folders
  have hprepare := value_prepare files root
  cases hroot : files.pathExists root with
  | false =>
    rw [hroot] at hprepare
    exact Or.inl ⟨rfl, fun cache ↦ failsWith_of_prepare_error hprepare⟩
  | true =>
    rw [hroot, if_pos rfl] at hprepare
    by_cases hfolders : folders = []
    · rw [if_pos hfolders] at hprepare
      exact Or.inr (Or.inl ⟨rfl, hfolders, fun cache ↦ failsWith_of_prepare_error hprepare⟩)
    · rw [if_neg hfolders] at hprepare
      have hgathers := fun cache ↦ gathers_of_prepare cache matching strategy hprepare
      exact Or.inr (Or.inr ⟨rfl, List.length_pos_of_ne_nil hfolders, _, hgathers⟩)

end DefCatalog.Scan
