import DefCatalog.Cache.File
import DefCatalog.Proofs.Cache.RoundTrip
import DefCatalog.Proofs.Catalog.WellFiled
import DefCatalog.Proofs.Files.Standing

/-!
# Loading a saved catalog

If saving a catalog has met no error, then the cache file is either not used or gives the catalog
back. The record may be stale, and an old time may be one that cannot be read, but no other catalog
can come from the file.
-/

namespace DefCatalog

namespace FileStep

/-- Further steps are carried out if all the first ones succeed. -/
theorem runAll_append (files : FileSystem) (first second : List FileStep) :
    runAll files (first ++ second) =
      match runAll files first with
      | (middle, none) => runAll middle second
      | (middle, some failure) => (middle, some failure) := by
  induction first generalizing files with
  | nil => rfl
  | cons step first ih =>
    rw [List.cons_append, runAll, runAll]
    cases step.run files with
    | error reason => rfl
    | ok middle => exact ih middle

theorem runAll_append_eq_none {files after : FileSystem} {first second : List FileStep}
    (h : runAll files (first ++ second) = (after, none)) :
    ∃ middle, runAll files first = (middle, none) ∧ runAll middle second = (after, none) := by
  rw [runAll_append] at h
  split at h
  · rename_i middle hfirst
    exact ⟨middle, hfirst, h⟩
  · cases h

theorem runAll_cons_eq_none {files after : FileSystem} {step : FileStep} {steps : List FileStep}
    (h : runAll files (step :: steps) = (after, none)) :
    ∃ middle, step.run files = .ok middle ∧ runAll middle steps = (after, none) := by
  rw [runAll] at h
  split at h
  · rename_i middle hstep
    exact ⟨middle, hstep, h⟩
  · cases h

section Replace

variable {files after : FileSystem} {directories : List FileStep} {draft path : Path} {bytes : Bytes}
  {failure : Option (FileStep × FileError)}

/-- Where some of the steps of replacing a file lead: they end while directories are made, or with
the draft written, or with the draft renamed. -/
theorem runAll_take_cases {count : Nat}
    (hrun : runAll files ((directories ++ [write draft bytes, rename draft path]).take count) =
      (after, failure)) :
    (after = (runAll files (directories.take count)).1 ∧
        ¬(directories.length + 2 ≤ count ∧ failure = none)) ∨
      ∃ middle written, runAll files directories = (middle, none) ∧
        middle.writeFile draft bytes = .ok written ∧
        (after = written ∧ ¬(directories.length + 2 ≤ count ∧ failure = none) ∨
          written.rename draft path = .ok after ∧
            (directories.length + 2 ≤ count ∧ failure = none)) := by
  rw [List.take_append, runAll_append] at hrun
  split at hrun
  · rename_i middle hfirst
    rcases Nat.lt_or_ge directories.length count with hmore | hfew
    · obtain ⟨more, hcount⟩ : ∃ more, count - directories.length = more + 1 :=
        ⟨count - directories.length - 1, by omega⟩
      have hall : directories.take count = directories := List.take_of_length_le (by omega)
      rw [hall] at hfirst
      rw [hcount, List.take_succ_cons] at hrun
      simp only [runAll, run] at hrun
      cases hwrite : middle.writeFile draft bytes with
      | error reason =>
        rw [hwrite] at hrun
        cases hrun
        exact Or.inl ⟨by rw [hall, hfirst], by simp⟩
      | ok written =>
        refine Or.inr ⟨middle, written, hfirst, hwrite, ?_⟩
        rw [hwrite] at hrun
        dsimp only at hrun
        cases more with
        | zero =>
          cases hrun
          exact Or.inl ⟨rfl, by omega⟩
        | succ more =>
          rw [List.take_succ_cons, List.take_nil] at hrun
          simp only [runAll, run] at hrun
          cases hrename : written.rename draft path with
          | error reason =>
            rw [hrename] at hrun
            cases hrun
            exact Or.inl ⟨rfl, by simp⟩
          | ok renamed =>
            rw [hrename] at hrun
            cases hrun
            exact Or.inr ⟨rfl, by omega, rfl⟩
    · rw [Nat.sub_eq_zero_of_le hfew] at hrun
      cases hrun
      exact Or.inl ⟨by rw [hfirst], by omega⟩
  · rename_i middle failed hfirst
    cases hrun
    exact Or.inl ⟨by rw [hfirst], by simp⟩

/-- Where all steps of replacing a file lead. -/
theorem runAll_replace_cases
    (hrun : runAll files (directories ++ [write draft bytes, rename draft path]) =
      (after, failure)) :
    (after = (runAll files directories).1 ∧ failure ≠ none) ∨
      ∃ middle written, runAll files directories = (middle, none) ∧
        middle.writeFile draft bytes = .ok written ∧
        (after = written ∧ failure ≠ none ∨
          written.rename draft path = .ok after ∧ failure = none) := by
  have hall : (directories ++ [write draft bytes, rename draft path]).take
      (directories.length + 2) = directories ++ [write draft bytes, rename draft path] :=
    List.take_of_length_le (by simp)
  have hcases := runAll_take_cases ((congrArg (runAll files) hall).trans hrun)
  rw [List.take_of_length_le (Nat.le_add_right _ 2)] at hcases
  simpa only [Nat.le_refl, true_and] using hcases

end Replace

end FileStep

/-- The catalog that was written is the only one that can be read from a record, whatever its time is
read as. -/
theorem Snapshot.toCatalog_of_ofBytes? {root : Path} {time : Instant} {catalog : Catalog}
    {snapshot : Snapshot} (hcatalog : catalog.WellFiled)
    (hread : ofBytes? (Utf8.encode (ofCatalog root time catalog).write) = some snapshot) :
    snapshot.toCatalog = catalog := by
  have hversion : currentVersion < versionBound := by decide
  rw [ofBytes?, Utf8.decode?_encode, Option.bind_some, read?_write hversion] at hread
  obtain ⟨builtAt, _, rfl⟩ := Option.map_eq_some_iff.mp hread
  exact Catalog.ofEntries_entries hcatalog

namespace CacheFile

variable {cache : CacheFile} {files after : FileSystem} {root root' : Path} {catalog : Catalog}

/-- Saving leaves what its steps leave, and meets an error if one of them fails. -/
theorem exists_run_of_save {error : Option CacheSaveError}
    (h : (cache.save files root catalog).value = (after, error)) :
    ∃ failure, FileStep.runAll files
        (cache.saveSteps files (Snapshot.ofCatalog root files.now catalog)) = (after, failure) ∧
      (failure = none ↔ error = none) := by
  simp only [save] at h
  split at h
  · rename_i hrun
    cases h
    exact ⟨_, hrun, by simp⟩
  · rename_i hrun
    cases h
    exact ⟨_, hrun, by simp⟩

/-- Saving without an error ends with writing the draft and giving it the path of the cache. -/
theorem save_eq_none (h : (cache.save files root catalog).value = (after, none)) :
    ∃ middle written : FileSystem,
      middle.writeFile cache.draft
        (Utf8.encode (Snapshot.ofCatalog root files.now catalog).write) = .ok written ∧
      written.rename cache.draft cache.path = .ok after := by
  obtain ⟨failure, hrun, hnone⟩ := exists_run_of_save h
  have hfailure := hnone.mpr rfl
  obtain ⟨_, hfailed⟩ | ⟨middle, written, _, hwrite, ⟨_, hfailed⟩ | ⟨hrename, _⟩⟩ :=
    FileStep.runAll_replace_cases hrun
  · exact absurd hfailure hfailed
  · exact absurd hfailure hfailed
  · exact ⟨middle, written, hwrite, hrename⟩

theorem read_eq_ok_iff {snapshot : Snapshot} : cache.read files = .ok snapshot ↔
    ∃ bytes, files.readFile cache.path = .ok bytes ∧ Snapshot.ofBytes? bytes = some snapshot := by
  unfold CacheFile.read FileSystem.readText Snapshot.ofBytes?
  cases files.readFile cache.path with
  | error reason => simp
  | ok bytes =>
    cases hdecode : Utf8.decode? bytes with
    | none => simp [hdecode]
    | some document => cases hread : Snapshot.read? document <;> simp [hdecode, hread]

/-- A catalog is loaded from a file that can be read as a snapshot that is not stale. -/
theorem load_eq_some_iff : (cache.load files root).value = some catalog ↔
    ∃ bytes snapshot, files.readFile cache.path = .ok bytes ∧
      Snapshot.ofBytes? bytes = some snapshot ∧ snapshot.staleness files root = none ∧
      snapshot.toCatalog = catalog := by
  constructor
  · intro h
    unfold load at h
    split at h
    · split at h
      · cases h
      · rename_i snapshot hread
        split at h
        · cases h
        · rename_i hfresh
          obtain ⟨bytes, hbytes, hsnapshot⟩ := read_eq_ok_iff.mp hread
          exact ⟨bytes, snapshot, hbytes, hsnapshot, hfresh, Option.some.inj h⟩
    · cases h
  · rintro ⟨bytes, snapshot, hbytes, hsnapshot, hfresh, rfl⟩
    have hread : cache.read files = .ok snapshot := read_eq_ok_iff.mpr ⟨bytes, hbytes, hsnapshot⟩
    simp only [load, if_pos (FileSystem.pathExists_of_readFile hbytes), hread, hfresh]

/-- A saved catalog is the only one that can be loaded from the file. -/
theorem load_of_save (hcatalog : catalog.WellFiled)
    (hsave : (cache.save files root catalog).value = (after, none)) {loaded : Catalog}
    (hload : (cache.load after root').value = some loaded) : loaded = catalog := by
  obtain ⟨middle, written, hwrite, hrename⟩ := save_eq_none hsave
  obtain ⟨bytes, snapshot, hfile, hread, _, rfl⟩ := load_eq_some_iff.mp hload
  have hname : '/' ∉ cache.path.fileName?.getD [] ++ ".tmp".toList := by
    intro hmem
    rcases List.mem_append.mp hmem with hfront | hend
    · cases hfile : cache.path.fileName? with
      | none =>
        rw [hfile] at hfront
        cases hfront
      | some name =>
        rw [hfile] at hfront
        exact Path.not_mem_fileName? hfile hfront
    · revert hend
      decide
  obtain rfl := FileSystem.readFile_of_replace hname (by simp) hwrite hrename hfile
  exact Snapshot.toCatalog_of_ofBytes? hcatalog hread

end CacheFile

end DefCatalog
