import DefCatalog.Proofs.Catalog.Filing
import DefCatalog.Proofs.Scan.Gathering
import DefCatalog.Scan.Exchange

/-!
# What a scan files and reports

The catalog of a scan holds what is found in its folders, filed in their order, whoever goes through
them: a worker's entries are merged to the same catalog. The progress that is reported tells of the
folders and of nothing else.
-/

namespace DefCatalog

variable {files : FileSystem} {matching : Matching} {route : Route} {catalog : Catalog}

namespace Noted

@[simp]
theorem progress_bind {α β : Type} (first : Noted α) (next : α → Noted β) :
    (first >>= next).progress = first.progress ++ (next first.value).progress := by
  unfold progress
  rw [notices_bind, List.filterMap_append]

theorem progress_eq_nil {α : Type} {noted : Noted α}
    (h : ∀ notice ∈ noted.notices, ∀ report, notice ≠ .progress report) : noted.progress = [] := by
  unfold progress
  rw [List.filterMap_eq_nil_iff]
  intro notice hnotice
  cases notice with
  | progress report => exact absurd rfl (h _ hnotice report)
  | _ => rfl

end Noted

namespace Harvest

/-- The definitions that are found on a route. -/
def found (files : FileSystem) (matching : Matching) (route : Route) (root : Path) :
    List Definition :=
  (route.encounters files root).flatMap (Encounter.definitions matching)

theorem lower_kind_of_mem_found {root : Path} {d : Definition}
    (h : d ∈ found files matching route root) : Text.lower d.kind = d.kind := by
  obtain ⟨encounter, _, hd⟩ := List.mem_flatMap.mp h
  exact Encounter.lower_kind_of_mem_definitions hd

theorem catalog_reap (root : Path) (catalog : Catalog) :
    (reap files matching route root catalog).value.catalog =
      catalog.insertAll (found files matching route root) := by
  unfold reap ofEncounters found
  dsimp only
  rw [List.flatMap_map]

theorem progress_reap (root : Path) (catalog : Catalog) :
    (reap files matching route root catalog).progress = [] := by
  apply Noted.progress_eq_nil
  intro notice hnotice report
  obtain ⟨⟨encounter, definitions⟩, _, hmem⟩ := List.mem_flatMap.mp hnotice
  intro heq
  rw [heq] at hmem
  cases encounter with
  | unread path reason => cases route <;> simp [Route.notices] at hmem
  | skipped reason => cases route <;> simp [Route.notices] at hmem
  | document path content =>
    cases route with
    | tour => cases hmem
    | descent =>
      simp only [Route.notices] at hmem
      split at hmem <;> simp at hmem

theorem merge_reap (root : Path) (catalog : Catalog) :
    catalog.merge (reap files matching route root ∅).value.catalog.entries =
      (reap files matching route root catalog).value.catalog := by
  rw [catalog_reap, catalog_reap]
  exact Catalog.merge_insertAll fun d hd ↦ lower_kind_of_mem_found hd

end Harvest

namespace Scan

variable {total finished : Nat} {folders : List Folder}

theorem catalog_gatherFrom :
    (gatherFrom files matching route total finished catalog folders).value =
      catalog.insertAll
        (folders.flatMap fun folder ↦ Harvest.found files matching route folder.path) := by
  induction folders generalizing finished catalog with
  | nil => rfl
  | cons folder folders ih =>
    rw [List.flatMap_cons, Catalog.insertAll_append, ← Harvest.catalog_reap]
    exact ih

/-- The reports on the folders from the one after the `finished` first ones. -/
def reportsFrom (total : Nat) : Nat → List Folder → List Progress
  | _, [] => []
  | finished, folder :: rest =>
    ⟨finished + 1, total, folder.name⟩ :: reportsFrom total (finished + 1) rest

theorem progress_gatherFrom :
    (gatherFrom files matching route total finished catalog folders).progress =
      reportsFrom total finished folders := by
  induction folders generalizing finished catalog with
  | nil => rfl
  | cons folder folders ih =>
    rw [gatherFrom, Noted.progress_bind, Noted.progress_bind, Harvest.progress_reap, ih]
    rfl

end Scan

namespace WorkerMessage

/-- A catalog after the entries of some messages have been merged into it. -/
def mergeInto (catalog : Catalog) : List WorkerMessage → Catalog
  | [] => catalog
  | definitions entries :: rest => mergeInto (catalog.merge entries) rest
  | _ :: rest => mergeInto catalog rest

/-- The progress that a message reports. -/
def report? : WorkerMessage → Option Progress
  | progress report => some report
  | _ => none

theorem mergeInto_append (catalog : Catalog) (first second : List WorkerMessage) :
    mergeInto catalog (first ++ second) = mergeInto (mergeInto catalog first) second := by
  induction first generalizing catalog with
  | nil => rfl
  | cons message first ih => cases message <;> exact ih _

/-- What a worker sends about some folders is as good as going through them. -/
theorem sendFrom_eq (files : FileSystem) (matching : Matching) (total finished : Nat)
    (catalog : Catalog) (folders : List Folder) :
    ∃ body, (sendFrom files matching total finished folders).value = body ++ [complete] ∧
      complete ∉ body ∧
      mergeInto catalog body =
        (Scan.gatherFrom files matching .descent total finished catalog folders).value ∧
      body.filterMap report? = Scan.reportsFrom total finished folders := by
  induction folders generalizing finished catalog with
  | nil => exact ⟨[], rfl, List.not_mem_nil, rfl, rfl⟩
  | cons folder folders ih =>
    let apart := (Harvest.reap files matching .descent folder.path ∅).value.catalog
    obtain ⟨body, hvalue, hcomplete, hmerge, hreports⟩ :=
      ih (finished + 1) (Harvest.reap files matching .descent folder.path catalog).value.catalog
    refine ⟨definitions apart.entries :: progress ⟨finished + 1, total, folder.name⟩ :: body,
      ?_, ?_, ?_, ?_⟩
    · rw [List.cons_append, List.cons_append, ← hvalue]
      rfl
    · simp [hcomplete]
    · calc
        mergeInto catalog (definitions apart.entries ::
            progress ⟨finished + 1, total, folder.name⟩ :: body) =
            mergeInto (catalog.merge apart.entries) body := rfl
        _ = _ := by
          rw [Harvest.merge_reap, hmerge]
          rfl
    · rw [Scan.reportsFrom, ← hreports]
      rfl

/-- A receiver that gets all messages has merged all of them. -/
theorem receive_append_complete {endedWell : Bool} {body : List WorkerMessage}
    (h : complete ∉ body) :
    (receive endedWell catalog (body ++ [complete])).value =
        (if endedWell then .ok (mergeInto catalog body) else .error .workerStopped) ∧
      (receive endedWell catalog (body ++ [complete])).progress = body.filterMap report? := by
  induction body generalizing catalog with
  | nil => cases endedWell <;> exact ⟨rfl, rfl⟩
  | cons message body ih =>
    rw [List.mem_cons, not_or] at h
    cases message with
    | definitions entries => exact ih h.2
    | progress report =>
      obtain ⟨hvalue, hprogress⟩ := @ih catalog h.2
      refine ⟨hvalue, ?_⟩
      rw [List.cons_append, receive, Noted.progress_bind, hprogress]
      rfl
    | complete => exact absurd rfl h.1

end WorkerMessage

/-! ## Whole scans -/

namespace Folder

theorem progress_subfolders (path : Path) : (subfolders files path).progress = [] := by
  unfold subfolders
  split <;> rfl

theorem progress_documentsWithin (outer : Text) (path : Path) :
    (documentsWithin files outer path).progress = [] := by
  unfold documentsWithin
  rw [Noted.progress_bind, progress_subfolders]
  rfl

theorem progress_ofMod (folder : Folder) : (ofMod files folder).progress = [] := by
  unfold ofMod
  rw [Noted.progress_bind, progress_documentsWithin]
  dsimp only
  split <;> rfl

theorem progress_ofMods (folders : List Folder) : (ofMods files folders).progress = [] := by
  induction folders with
  | nil => rfl
  | cons folder folders ih =>
    rw [ofMods, Noted.progress_bind, progress_ofMod, Noted.progress_bind, ih]
    rfl

theorem progress_discover (root : Path) : (discover files root).progress = [] := by
  have hdata : (if files.isDirectory (root / dataName) then
      documentsWithin files dataName.toList (root / dataName) else return []).progress = [] := by
    split
    · exact progress_documentsWithin _ _
    · rfl
  have hmods : (if files.isDirectory (root / modsName) then do
      let folders ← subfolders files (root / modsName)
      Noted.tell [.modFolders folders.length]
      ofMods files folders
    else return [] : Noted (List Folder)).progress = [] := by
    split
    · rw [Noted.progress_bind, progress_subfolders, Noted.progress_bind, progress_ofMods]
      rfl
    · rfl
  unfold discover
  dsimp only
  rw [Noted.progress_bind, hdata, Noted.progress_bind, hmods]
  rfl

end Folder

namespace Scan

variable {folders : List Folder} {root : Path} {cache : Option CacheFile} {strategy : Strategy}

theorem progress_prepare (files : FileSystem) (root : Path) :
    (prepare files root).progress = [] := by
  unfold prepare
  split
  · rw [Noted.progress_bind, Folder.progress_discover]
    split <;> rfl
  · rfl

/-- A scan begins if the root exists and has folders of documents. -/
theorem value_prepare (files : FileSystem) (root : Path) :
    (prepare files root).value =
      if files.pathExists root then
        if (Folder.discover files root).value = [] then .error (.noFolders root)
        else .ok (Folder.discover files root).value
      else .error (.rootNotFound root) := by
  unfold prepare
  split
  · rw [Noted.value_bind]
    simp only [List.isEmpty_iff]
    split <;> rfl
  · rfl

theorem value_prepare_eq_ok_iff : (prepare files root).value = .ok folders ↔
    files.pathExists root = true ∧ (Folder.discover files root).value ≠ [] ∧
      folders = (Folder.discover files root).value := by
  rw [value_prepare]
  split
  · rename_i hroot
    split
    · rename_i hnone
      simp [hnone]
    · rename_i hfound
      simp [hroot, hfound, eq_comm]
  · rename_i hmissing
    simp [hmissing]

theorem value_prepare_eq_ok (h : (prepare files root).value = .ok folders) :
    (Folder.discover files root).value = folders :=
  (value_prepare_eq_ok_iff.mp h).2.2.symm

/-- Every strategy gathers what is found on its route, if nothing stops it. -/
theorem value_gather (files : FileSystem) (matching : Matching) (strategy : Strategy)
    (folders : List Folder) :
    (gather files matching strategy folders).value =
      .ok (Catalog.insertAll ∅
        (folders.flatMap fun folder ↦ Harvest.found files matching strategy.route folder.path)) := by
  cases strategy with
  | worker =>
    obtain ⟨body, hvalue, hcomplete, hmerge, _⟩ :=
      WorkerMessage.sendFrom_eq files matching folders.length 0 ∅ folders
    calc
      (gather files matching .worker folders).value =
          (WorkerMessage.receive true ∅ (body ++ [.complete])).value := by
        rw [gather, WorkerMessage.send, Noted.value_bind, hvalue]
      _ = .ok (WorkerMessage.mergeInto ∅ body) :=
        (WorkerMessage.receive_append_complete hcomplete).1
      _ = .ok (Catalog.insertAll ∅
            (folders.flatMap fun folder ↦ Harvest.found files matching .descent folder.path)) := by
        rw [hmerge, catalog_gatherFrom]
  | sync | cooperative =>
    rw [← catalog_gatherFrom]
    rfl

theorem progress_sendFrom {total finished : Nat} :
    (WorkerMessage.sendFrom files matching total finished folders).progress = [] := by
  induction folders generalizing finished with
  | nil => rfl
  | cons folder folders ih =>
    rw [WorkerMessage.sendFrom, Noted.progress_bind, Harvest.progress_reap, Noted.progress_bind, ih]
    rfl

theorem progress_gather (files : FileSystem) (matching : Matching) (strategy : Strategy)
    (folders : List Folder) :
    (gather files matching strategy folders).progress = reportsFrom folders.length 0 folders := by
  cases strategy with
  | worker =>
    obtain ⟨body, hvalue, hcomplete, _, hreports⟩ :=
      WorkerMessage.sendFrom_eq files matching folders.length 0 ∅ folders
    calc
      (gather files matching .worker folders).progress =
          (WorkerMessage.receive true ∅ (body ++ [.complete])).progress := by
        rw [gather, WorkerMessage.send, Noted.progress_bind, progress_sendFrom, hvalue,
          List.nil_append]
      _ = body.filterMap WorkerMessage.report? :=
        (WorkerMessage.receive_append_complete hcomplete).2
      _ = reportsFrom folders.length 0 folders := hreports
  | sync | cooperative =>
    unfold gather
    rw [Noted.progress_bind, progress_gatherFrom]
    exact List.append_nil _

theorem progress_keep (files : FileSystem) (root : Path) (cache : Option CacheFile)
    (catalog : Catalog) : (keep files root cache catalog).progress = [] := by
  apply Noted.progress_eq_nil
  intro notice hnotice report heq
  rw [heq] at hnotice
  cases cache with
  | none => cases hnotice
  | some cache =>
    unfold keep CacheFile.save at hnotice
    dsimp only at hnotice
    split at hnotice <;> simp at hnotice

theorem progress_summary (catalog : Catalog) (count : Nat) :
    (Noted.tell (summary catalog count)).progress = [] := by
  apply Noted.progress_eq_nil
  intro notice hnotice report heq
  rw [heq] at hnotice
  simp [summary] at hnotice

theorem conclude_error (count : Nat) (error : ScanError) :
    (conclude files root cache count (.error error)).value = (files, .error error) :=
  rfl

theorem conclude_ok (count : Nat) (catalog : Catalog) :
    (conclude files root cache count (.ok catalog)).value =
      ((keep files root cache catalog).value.1,
        .ok ⟨catalog, count, (keep files root cache catalog).value.2⟩) :=
  rfl

theorem run_of_prepare_error {error : ScanError}
    (hprepare : (prepare files root).value = .error error) :
    (run files root cache matching strategy).value = (files, .error error) := by
  unfold run
  rw [Noted.value_bind, hprepare]
  rfl

theorem progress_run_of_prepare_error {error : ScanError}
    (hprepare : (prepare files root).value = .error error) :
    (run files root cache matching strategy).progress = [] := by
  unfold run
  rw [Noted.progress_bind, progress_prepare, hprepare]
  rfl

theorem value_keep_some (files : FileSystem) (root : Path) (cache : CacheFile) (catalog : Catalog) :
    (keep files root (some cache) catalog).value = (cache.save files root catalog).value := by
  unfold keep
  rw [Noted.value_bind]
  generalize (cache.save files root catalog).value = result
  obtain ⟨after, error⟩ := result
  rfl

/-- What a scan comes to once its folders are known. -/
theorem run_of_prepare (cache : Option CacheFile) (matching : Matching) (strategy : Strategy)
    (hprepare : (prepare files root).value = .ok folders) :
    (run files root cache matching strategy).value =
        (conclude files root cache folders.length
          (gather files matching strategy folders).value).value ∧
      (run files root cache matching strategy).progress = reportsFrom folders.length 0 folders := by
  have hgather := value_gather files matching strategy folders
  constructor
  · unfold run
    rw [Noted.value_bind, hprepare]
    dsimp only
    rw [Noted.value_bind, hgather]
    rfl
  · unfold run
    rw [Noted.progress_bind, progress_prepare, hprepare, List.nil_append]
    dsimp only
    rw [Noted.progress_bind, progress_gather, hgather]
    dsimp only
    rw [Noted.progress_bind, progress_summary, Noted.progress_bind, progress_keep]
    exact List.append_nil _

/-- What a scan that comes to an end has found and saved. -/
theorem run_eq_ok {after : FileSystem} {scanned : Scanned}
    (h : (run files root cache matching strategy).value = (after, .ok scanned)) :
    ∃ folders, (prepare files root).value = .ok folders ∧
      scanned.catalog = Catalog.insertAll ∅
        (folders.flatMap fun folder ↦ Harvest.found files matching strategy.route folder.path) ∧
      scanned.catalog.WellFiled ∧
      (keep files root cache scanned.catalog).value = (after, scanned.saveError) := by
  cases hprepare : (prepare files root).value with
  | error error =>
    rw [run_of_prepare_error hprepare] at h
    cases h
  | ok folders =>
    have hgather := value_gather files matching strategy folders
    rw [(run_of_prepare cache matching strategy hprepare).1, hgather, conclude_ok] at h
    cases h
    exact ⟨folders, rfl, rfl, wellFiled_gather hgather, rfl⟩

end Scan

end DefCatalog
