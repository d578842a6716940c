import DefCatalog.Proofs.Cache.File
import DefCatalog.Proofs.Scan.Reports
import DefCatalog.Proofs.Scan.Touring
import DefCatalog.Provider.Basic

/-!
# Loading what another provider saved

A cache file keeps a catalog for an install root, but not the way of matching that it was gathered
with. A provider that uses the cache of another one is left with what the other one gathered; a
provider that does not use it is left with the outcome of its own scan.
-/

namespace DefCatalog

variable {files after : FileSystem}

namespace Provider

variable {first second provider : Provider} {root : Path}

/-- A scan that comes to an end leaves a provider with its catalog. -/
theorem generate_of_run_ok {scanned : Scanned} (hroot : provider.installRoot = some root)
    (hrun : (Scan.run files root (some provider.cache) provider.matching provider.strategy).value =
      (after, .ok scanned)) :
    (provider.generate files).value = ⟨.ok ⟨scanned.folders, scanned.saveError⟩,
      { provider with definitions := scanned.catalog }, after⟩ := by
  unfold generate generateBy
  rw [hroot]
  dsimp only
  rw [Noted.value_bind, hrun]
  rfl

/-- A scan that fails leaves a provider as it was. -/
theorem generate_of_run_error {error : ScanError} (hroot : provider.installRoot = some root)
    (hrun : (Scan.run files root (some provider.cache) provider.matching provider.strategy).value =
      (after, .error error)) :
    (provider.generate files).value = ⟨.error error, provider, after⟩ := by
  unfold generate generateBy
  rw [hroot]
  dsimp only
  rw [Noted.value_bind, hrun]
  rfl

/-- Only a scan that comes to an end gives a summary. -/
theorem generate_eq_ok {summary : ScanSummary} {provider' : Provider}
    (h : (provider.generate files).value = ⟨.ok summary, provider', after⟩) :
    ∃ root scanned, provider.installRoot = some root ∧
      (Scan.run files root (some provider.cache) provider.matching provider.strategy).value =
        (after, .ok scanned) ∧
      summary = ⟨scanned.folders, scanned.saveError⟩ := by
  cases hroot : provider.installRoot with
  | none =>
    unfold generate generateBy at h
    rw [hroot] at h
    cases h
  | some root =>
    obtain ⟨after', outcome, hrun⟩ : ∃ after' outcome,
        (Scan.run files root (some provider.cache) provider.matching provider.strategy).value =
          (after', outcome) := ⟨_, _, rfl⟩
    cases outcome with
    | error error =>
      rw [generate_of_run_error hroot hrun] at h
      cases h
    | ok scanned =>
      rw [generate_of_run_ok hroot hrun] at h
      cases h
      exact ⟨root, scanned, rfl, hrun, rfl⟩

/-- A tour of the only folder leaves a provider with what is met there. -/
theorem generate_of_tour {folder : Folder} {encounters : List Encounter} {found : List Definition}
    (hroot : provider.installRoot = some root) (hstrategy : provider.strategy = .cooperative)
    (hprepare : (Scan.prepare files root).value = .ok [folder])
    (htour : files.tour folder.path = encounters)
    (hfound : encounters.flatMap (Encounter.definitions provider.matching) = found)
    (hkeep : (Scan.keep files root (some provider.cache) (Catalog.insertAll ∅ found)).value =
      (after, none)) :
    (provider.generate files).value =
      ⟨.ok ⟨1, none⟩, { provider with definitions := Catalog.insertAll ∅ found }, after⟩ := by
  have hmet : Harvest.found files provider.matching provider.strategy.route folder.path = found := by
    rw [hstrategy, ← hfound, ← htour]
    rfl
  have hrun : (Scan.run files root (some provider.cache) provider.matching provider.strategy).value =
      (after, .ok ⟨Catalog.insertAll ∅ found, 1, none⟩) := by
    rw [(Scan.run_of_prepare _ _ _ hprepare).1, Scan.value_gather, Scan.conclude_ok,
      List.flatMap_singleton, hmet, hkeep]
    rfl
  exact generate_of_run_ok hroot hrun

theorem load_of_cache {catalog : Catalog} (hroot : provider.installRoot = some root)
    (hcache : (provider.cache.load files root).value = some catalog) :
    (provider.load files).value = ⟨.ok .cache, { provider with definitions := catalog }, files⟩ := by
  unfold load
  rw [hroot]
  dsimp only
  rw [Noted.value_bind, hcache]
  rfl

/-- Without a catalog in the cache file, loading is scanning. -/
theorem load_of_miss (hroot : provider.installRoot = some root)
    (hcache : (provider.cache.load files root).value = none) :
    (provider.load files).value =
      ⟨(provider.generate files).value.answer.map fun summary ↦ .scan summary.folders,
        (provider.generate files).value.provider, (provider.generate files).value.files⟩ := by
  obtain ⟨reply, hreply⟩ : ∃ reply, (provider.generate files).value = reply := ⟨_, rfl⟩
  rw [hreply]
  unfold load
  rw [hroot]
  dsimp only
  rw [Noted.value_bind, hcache]
  dsimp only
  rw [Noted.value_bind, hreply]
  cases reply.answer with
  | error error => rfl
  | ok summary => rfl

theorem load_of_no_cache (hroot : provider.installRoot = some root)
    (hcache : (provider.cache.load files root).value = none) :
    (provider.load files).value.answer ≠ .ok .cache ∧
      (provider.load files).value.provider = (provider.generate files).value.provider := by
  rw [load_of_miss hroot hcache]
  refine ⟨?_, rfl⟩
  cases (provider.generate files).value.answer with
  | error error => exact fun heq ↦ nomatch heq
  | ok summary => exact fun heq ↦ nomatch heq

/-- A provider that scans like another one: by its strategy and its way of matching. -/
def scanningLike (provider other : Provider) : Provider :=
  { provider with matching := other.matching, strategy := other.strategy }

/-- After one provider has scanned and saved, a second one with the same root and cache file is left
with what it would have gathered itself by the first one's way of matching and strategy, if it uses
the cache file, and otherwise with the outcome of its own scan. -/
theorem load_after_generate {files : FileSystem} {first second : Provider} {summary : ScanSummary}
    (hroot : second.installRoot = first.installRoot) (hcache : second.cache = first.cache)
    (hanswer : (first.generate files).value.answer = .ok summary)
    (hsaved : summary.saveError = none) :
    let after := (first.generate files).value.files
    ((second.load after).value.answer = .ok .cache ∧
        (second.load after).value.provider.definitions =
          ((second.scanningLike first).generate files).value.provider.definitions) ∨
      ((second.load after).value.answer ≠ .ok .cache ∧
        (second.load after).value.provider = (second.generate after).value.provider) := by
  intro after
  have hgenerate : (first.generate files).value =
      ⟨.ok summary, (first.generate files).value.provider, after⟩ := by
    rw [← hanswer]
  obtain ⟨root, scanned, hfirst, hrun, rfl⟩ := generate_eq_ok hgenerate
  obtain ⟨_, _, _, hwell, hkeep⟩ := Scan.run_eq_ok hrun
  have hsecond : second.installRoot = some root := hroot.trans hfirst
  cases hload : (second.cache.load after root).value with
  | none => exact Or.inr (load_of_no_cache hsecond hload)
  | some catalog =>
    have hroot' : (second.scanningLike first).installRoot = some root := hsecond
    have hlike : (Scan.run files root (some (second.scanningLike first).cache)
        (second.scanningLike first).matching (second.scanningLike first).strategy).value =
        (after, .ok scanned) := by
      rw [← hrun, ← hcache]
      rfl
    have hsave : (first.cache.save files root scanned.catalog).value = (after, none) := by
      rw [← show scanned.saveError = none from hsaved]
      exact hkeep
    have hcatalog : catalog = scanned.catalog :=
      CacheFile.load_of_save hwell hsave (by rw [← hcache]; exact hload)
    rw [load_of_cache hsecond hload, generate_of_run_ok hroot' hlike]
    exact Or.inl ⟨rfl, hcatalog⟩

/-- The document of the sample. Only the looser way of matching finds a name in it. -/
def sampleDocument : Bytes :=
  Utf8.encode "<ThingDef ParentName=\"P\"></ThingDef>".toList

/-- Where the documents of the sample lie. -/
def sampleDefs : Location :=
  ["Defs".toList, "Core".toList, "Data".toList, "i".toList]

def sampleFolder : Folder :=
  ⟨Path.ofString "i/Data/Core/Defs", "Data/Core".toList⟩

/-- An install root with one document. -/
def sampleTree : FileSystem where
  nodes :=
    [([], ⟨.directory, ⟨0, 0⟩⟩), (["i".toList], ⟨.directory, ⟨0, 0⟩⟩),
      (["Data".toList, "i".toList], ⟨.directory, ⟨0, 0⟩⟩),
      (["Core".toList, "Data".toList, "i".toList], ⟨.directory, ⟨0, 0⟩⟩),
      (sampleDefs, ⟨.directory, ⟨0, 0⟩⟩),
      ("a.xml".toList :: sampleDefs, ⟨.file sampleDocument, ⟨0, 0⟩⟩)]
  working := []
  now := ⟨1000000000, 0⟩

/-- A provider for the sample. -/
def sampleProvider (cache : CacheFile) (matching : Matching) : Provider where
  installRoot := some (Path.ofString "i")
  cache := cache
  strategy := .cooperative
  matching := matching

/-- A cache file beside the install root. -/
def besideCache : CacheFile :=
  ⟨Path.ofString "c.json"⟩

/-- A cache file in the place of the document. -/
def documentCache : CacheFile :=
  ⟨Path.ofString "i/Data/Core/Defs/a.xml"⟩

/-- Whether a file system has the one document of the sample, with some content. -/
def HasSample (files : FileSystem) (content : Bytes) : Prop :=
  (Scan.prepare files (Path.ofString "i")).value = .ok [sampleFolder] ∧
    files.locateDirectory sampleFolder.path = .ok sampleDefs ∧
    files.sortedNames sampleDefs = ["a.xml".toList] ∧
    files.locate (sampleFolder.path / "a.xml") = .ok ("a.xml".toList :: sampleDefs) ∧
    files.contentAt? ("a.xml".toList :: sampleDefs) = some (.file content)

theorem tour_sample {content : Bytes} (h : HasSample files content) :
    files.tour sampleFolder.path = [.document (sampleFolder.path / "a.xml") content] := by
  obtain ⟨_, hfolder, hnames, hpath, hcontent⟩ := h
  have hdocument : Encounter.ofFile files (sampleFolder.path / "a.xml") =
      [.document (sampleFolder.path / "a.xml") content] :=
    Encounter.ofFile_of_locate hpath hcontent (by decide)
  rw [FileSystem.tour_of_single hfolder hnames]
  exact (FileSystem.tourFrom_file hpath hcontent).trans
    (by rw [hdocument, FileSystem.tourFrom_nil]; rfl)

theorem generate_sample {content : Bytes} {found : List Definition} (h : HasSample files content)
    (hroot : provider.installRoot = some (Path.ofString "i"))
    (hstrategy : provider.strategy = .cooperative)
    (hfound : Markup.extract provider.matching (Utf8.decodeLossy content) = found)
    (hkeep : (Scan.keep files (Path.ofString "i") (some provider.cache)
      (Catalog.insertAll ∅ found)).value = (after, none)) :
    (provider.generate files).value =
      ⟨.ok ⟨1, none⟩, { provider with definitions := Catalog.insertAll ∅ found }, after⟩ := by
  apply generate_of_tour hroot hstrategy h.1 (tour_sample h) _ hkeep
  rw [List.flatMap_singleton, ← hfound]
  rfl

def sampleCatalog : Catalog :=
  ⟨[⟨"thing".toList, ["P".toList]⟩]⟩

def savedTree (cache : CacheFile) : FileSystem :=
  (Scan.keep sampleTree (Path.ofString "i") (some cache) sampleCatalog).value.1

theorem hasSample_sampleTree : HasSample sampleTree sampleDocument := by
  refine ⟨?_, ?_, ?_, ?_, ?_⟩ <;> decide +kernel

theorem generate_sampleTree (cache : CacheFile)
    (hkeep : (Scan.keep sampleTree (Path.ofString "i") (some cache) sampleCatalog).value.2 = none) :
    ((sampleProvider cache .loose).generate sampleTree).value = ⟨.ok ⟨1, none⟩,
      { sampleProvider cache .loose with definitions := sampleCatalog }, savedTree cache⟩ := by
  have hfound : Markup.extract .loose (Utf8.decodeLossy sampleDocument) =
      [⟨"thing".toList, "P".toList⟩] := by decide +kernel
  have hcatalog : Catalog.insertAll ∅ [⟨"thing".toList, "P".toList⟩] = sampleCatalog := by
    decide +kernel
  have hsaved : (Scan.keep sampleTree (Path.ofString "i") (some cache) sampleCatalog).value =
      (savedTree cache, none) := by
    unfold savedTree
    exact Prod.ext rfl hkeep
  rw [← hcatalog] at hsaved ⊢
  exact generate_sample hasSample_sampleTree rfl rfl hfound hsaved

theorem answer_sampleTree (cache : CacheFile)
    (hkeep : (Scan.keep sampleTree (Path.ofString "i") (some cache) sampleCatalog).value.2 = none) :
    ((sampleProvider cache .loose).generate sampleTree).value.answer = .ok ⟨1, none⟩ := by
  rw [generate_sampleTree cache hkeep]

theorem saves_sampleTree : (Scan.keep sampleTree (Path.ofString "i") (some besideCache)
    sampleCatalog).value.2 = none := by
  decide +kernel

/-- Where the saved sample has a document without names, loading is not like scanning. -/
theorem load_ne_generate_of_saved (cache : CacheFile) (matching : Matching) {document : Bytes}
    (hsaved : (Scan.keep sampleTree (Path.ofString "i") (some cache) sampleCatalog).value.2 = none)
    (hload : (cache.load (savedTree cache) (Path.ofString "i")).value = some sampleCatalog)
    (hsample : HasSample (savedTree cache) document)
    (hfound : Markup.extract matching (Utf8.decodeLossy document) = [])
    (hkeep : (Scan.keep (savedTree cache) (Path.ofString "i") (some cache)
      (Catalog.insertAll ∅ [])).value.2 = none) :
    let after := ((sampleProvider cache .loose).generate sampleTree).value.files
    ((sampleProvider cache matching).load after).value.provider.definitions ≠
      ((sampleProvider cache matching).generate after).value.provider.definitions := by
  have hafter : ((sampleProvider cache .loose).generate sampleTree).value.files =
      savedTree cache := by
    rw [generate_sampleTree cache hsaved]
  have hroot : (sampleProvider cache matching).installRoot = some (Path.ofString "i") := rfl
  have hne : sampleCatalog ≠ Catalog.insertAll ∅ [] := by decide
  intro after
  rw [show after = savedTree cache from hafter, load_of_cache hroot hload,
    generate_sample hsample hroot rfl hfound (Prod.ext rfl hkeep)]
  exact hne

/-- The looser provider saves the sample, and the stricter one loads it. -/
theorem load_after_generate_sampleTree :
    (sampleProvider besideCache .strict).installRoot = (sampleProvider besideCache .loose).installRoot ∧
      (sampleProvider besideCache .strict).cache = (sampleProvider besideCache .loose).cache ∧
      ((sampleProvider besideCache .loose).generate sampleTree).value.answer = .ok ⟨1, none⟩ ∧
      (ScanSummary.mk 1 none).saveError = none ∧
      (let after := ((sampleProvider besideCache .loose).generate sampleTree).value.files
      let loaded := ((sampleProvider besideCache .strict).load after).value
      (loaded.answer = .ok .cache ∧ loaded.provider.definitions =
          (((sampleProvider besideCache .strict).scanningLike
            (sampleProvider besideCache .loose)).generate sampleTree).value.provider.definitions) ∨
        (loaded.answer ≠ .ok .cache ∧ loaded.provider =
          ((sampleProvider besideCache .strict).generate after).value.provider)) := by
  have hanswer : ((sampleProvider besideCache .loose).generate sampleTree).value.answer =
      .ok ⟨1, none⟩ := answer_sampleTree besideCache saves_sampleTree
  exact ⟨rfl, rfl, hanswer, rfl, load_after_generate rfl rfl hanswer rfl⟩

/-- What is loaded need not be what an own scan gives: not if the ways of matching differ, and if the
cache file takes the place of a document, not even if they are the same. -/
theorem not_load_eq_generate :
    (¬∀ (files : FileSystem) (first second : Provider) (summary : ScanSummary),
      second.installRoot = first.installRoot → second.cache = first.cache →
        second.strategy = first.strategy → second.definitions = ∅ →
          (first.generate files).value.answer = .ok summary → summary.saveError = none →
            (second.load (first.generate files).value.files).value.provider.definitions =
              (second.generate (first.generate files).value.files).value.provider.definitions) ∧
      ¬∀ (files : FileSystem) (first second : Provider) (summary : ScanSummary),
        second.installRoot = first.installRoot → second.cache = first.cache →
          second.strategy = first.strategy → second.matching = first.matching →
            second.definitions = ∅ →
              (first.generate files).value.answer = .ok summary → summary.saveError = none →
                (second.load (first.generate files).value.files).value.provider.definitions =
                  (second.generate (first.generate files).value.files).value.provider.definitions :=
  by
  constructor
  · intro h
    have hdocument : HasSample (savedTree besideCache) sampleDocument := by
      refine ⟨?_, ?_, ?_, ?_, ?_⟩ <;> decide +kernel
    have hanswer := answer_sampleTree besideCache saves_sampleTree
    have hne := load_ne_generate_of_saved besideCache .strict saves_sampleTree (by decide +kernel)
      hdocument (by decide +kernel) (by decide +kernel)
    exact hne (h sampleTree (sampleProvider besideCache .loose)
      (sampleProvider besideCache .strict) ⟨1, none⟩ rfl rfl rfl rfl hanswer rfl)
  · intro h
    have hsaved : (Scan.keep sampleTree (Path.ofString "i") (some documentCache)
        sampleCatalog).value.2 = none := by decide +kernel
    have hdocument : HasSample (savedTree documentCache) (Utf8.encode
        (Snapshot.ofCatalog (Path.ofString "i") sampleTree.now sampleCatalog).write) := by
      refine ⟨?_, ?_, ?_, ?_, ?_⟩ <;> decide +kernel
    have hanswer := answer_sampleTree documentCache hsaved
    have hne := load_ne_generate_of_saved documentCache .loose hsaved (by decide +kernel) hdocument
      (by decide +kernel) (by decide +kernel)
    exact hne (h sampleTree (sampleProvider documentCache .loose)
      (sampleProvider documentCache .loose) ⟨1, none⟩ rfl rfl rfl rfl rfl hanswer rfl)

end Provider

end DefCatalog
