import DefCatalog.Proofs.Provider.Loading
import DefCatalog.Proofs.Scan.Exchange
import DefCatalog.Provider.Dialogue

/-!
# Providers never hold half a catalog

A host makes requests to one provider in any order, with any changes to the file system in between.
A worker may break down at any point of a scan. Whatever happens, an operation that fails leaves the
definitions as they were, or empty where they are given up first, and an operation that succeeds
takes over a whole catalog: that of a snapshot that is read and not stale, or that of everything
found in all folders. Each operation is described once by what it can come to; from that follow what
one request preserves and what holds in every dialogue that can be reached.
-/

namespace DefCatalog

open Relation

variable {files after : FileSystem} {root : Path} {cache : Option CacheFile} {matching : Matching}
  {strategy : Strategy}

namespace Scan

/-- The outcomes of a scan: that of doing it in one go, and if a worker does it, also that of any
exchange between the worker and its receiver. -/
inductive Ends (files : FileSystem) (root : Path) (cache : Option CacheFile) (matching : Matching) :
    Strategy → FileSystem × Except ScanError Scanned → Prop where
  | run (strategy : Strategy) :
      Ends files root cache matching strategy (run files root cache matching strategy).value
  | exchange {folders : List Folder} {last : Exchange} {outcome : Except ScanError Catalog}
      (hprepare : (prepare files root).value = .ok folders)
      (hrun : ReflTransGen Exchange.Step (Exchange.start files matching folders) last)
      (hdone : last.reception = .done outcome) :
      Ends files root cache matching .worker
        (conclude files root cache folders.length outcome).value

/-- The catalog of everything that is found in all folders under a root on a route. -/
def Covers (files : FileSystem) (root : Path) (matching : Matching) (route : Route) (count : Nat)
    (catalog : Catalog) : Prop :=
  ∃ folders, (prepare files root).value = .ok folders ∧ count = folders.length ∧
    catalog = Catalog.insertAll ∅
      (folders.flatMap fun folder ↦ Harvest.found files matching route folder.path)

/-- A scan fails and writes nothing, or it has the whole catalog, even if that cannot be saved. -/
theorem Ends.cases {result : FileSystem × Except ScanError Scanned}
    (h : Ends files root cache matching strategy result) :
    (∃ error, result = (files, .error error)) ∨
      ∃ after scanned, result = (after, .ok scanned) ∧
        Covers files root matching strategy.route scanned.folders scanned.catalog := by
  cases h with
  | run =>
    cases hprepare : (prepare files root).value with
    | error error => exact Or.inl ⟨error, run_of_prepare_error hprepare⟩
    | ok folders =>
      rw [(run_of_prepare cache matching strategy hprepare).1, value_gather, conclude_ok]
      exact Or.inr ⟨_, _, rfl, folders, hprepare, rfl, rfl⟩
  | @exchange folders last outcome hprepare hrun hdone =>
    rcases Exchange.outcome_of_run hrun hdone with rfl | rfl
    · exact Or.inl ⟨.workerStopped, conclude_error _ _⟩
    · rw [value_gather, conclude_ok]
      exact Or.inr ⟨_, _, rfl, folders, hprepare, rfl, rfl⟩

end Scan

/-- A snapshot that can be read from a cache file and is not stale. -/
def CacheFile.IsFresh (cache : CacheFile) (files : FileSystem) (root : Path) (snapshot : Snapshot) :
    Prop :=
  cache.read files = .ok snapshot ∧ snapshot.staleness files root = none

theorem CacheFile.exists_isFresh {cache : CacheFile} {catalog : Catalog}
    (h : (cache.load files root).value = some catalog) :
    ∃ snapshot, cache.IsFresh files root snapshot ∧ catalog = snapshot.toCatalog := by
  obtain ⟨bytes, snapshot, hbytes, hread, hfresh, rfl⟩ := load_eq_some_iff.mp h
  exact ⟨snapshot, ⟨read_eq_ok_iff.mpr ⟨bytes, hbytes, hread⟩, hfresh⟩, rfl⟩

theorem CacheFile.clear_cases (cache : CacheFile) (files : FileSystem) :
    (cache.clear files).value.1 = files ∨
      files.removeFile cache.path = .ok (cache.clear files).value.1 := by
  unfold clear
  split
  · rename_i after hremove
    exact Or.inr hremove
  · exact Or.inl rfl
  · exact Or.inl rfl

namespace Provider

variable {provider : Provider}

/-- A catalog of everything that is found in all folders under the root of a provider, by its way of
matching. -/
def HasScanned (provider : Provider) (files : FileSystem) (route : Route) (count : Nat)
    (catalog : Catalog) : Prop :=
  ∃ root, provider.installRoot = some root ∧
    Scan.Covers files root provider.matching route count catalog

/-- A catalog of a snapshot in the cache file of a provider, made for its root and not stale. -/
def HasLoaded (provider : Provider) (files : FileSystem) (catalog : Catalog) : Prop :=
  ∃ root snapshot, provider.installRoot = some root ∧
    provider.cache.IsFresh files root snapshot ∧ catalog = snapshot.toCatalog

/-- The provider after a scan. -/
def settle (provider : Provider) :
    FileSystem × Except ScanError Scanned → Reply (Except ScanError ScanSummary)
  | (after, .error error) => ⟨.error error, provider, after⟩
  | (after, .ok scanned) =>
    ⟨.ok ⟨scanned.folders, scanned.saveError⟩, { provider with definitions := scanned.catalog },
      after⟩

/-- The replies to the request to scan. -/
inductive Generates (strategy : Strategy) (provider : Provider) (files : FileSystem) :
    Reply (Except ScanError ScanSummary) → Prop where
  | unconfigured (hroot : provider.installRoot = none) :
      Generates strategy provider files ⟨.error .rootNotConfigured, provider, files⟩
  | scanned {root : Path} {result : FileSystem × Except ScanError Scanned}
      (hroot : provider.installRoot = some root)
      (hends : Scan.Ends files root (some provider.cache) provider.matching strategy result) :
      Generates strategy provider files (provider.settle result)

/-- The replies to the request to load. -/
inductive Loads (provider : Provider) (files : FileSystem) :
    Reply (Except ScanError LoadSource) → Prop where
  | unconfigured (hroot : provider.installRoot = none) :
      Loads provider files ⟨.ok .notConfigured, provider, files⟩
  | cached {root : Path} {catalog : Catalog} (hroot : provider.installRoot = some root)
      (hcache : (provider.cache.load files root).value = some catalog) :
      Loads provider files ⟨.ok .cache, { provider with definitions := catalog }, files⟩
  | generated {root : Path} {reply : Reply (Except ScanError ScanSummary)}
      (hroot : provider.installRoot = some root)
      (hcache : (provider.cache.load files root).value = none)
      (hreply : Generates provider.strategy provider files reply) :
      Loads provider files
        ⟨reply.answer.map fun summary ↦ .scan summary.folders, reply.provider, reply.files⟩

theorem generateBy_eq_settle (hroot : provider.installRoot = some root) :
    (provider.generateBy strategy files).value =
      provider.settle
        (Scan.run files root (some provider.cache) provider.matching strategy).value := by
  unfold generateBy settle
  rw [hroot]
  dsimp only
  rw [Noted.value_bind]
  generalize (Scan.run files root (some provider.cache) provider.matching strategy).value = result
  obtain ⟨after, outcome⟩ := result
  cases outcome with
  | error error => rfl
  | ok scanned => rfl

theorem generates_generateBy (strategy : Strategy) (provider : Provider) (files : FileSystem) :
    Generates strategy provider files (provider.generateBy strategy files).value := by
  cases hroot : provider.installRoot with
  | none =>
    unfold generateBy
    rw [hroot]
    exact .unconfigured hroot
  | some root =>
    rw [generateBy_eq_settle hroot]
    exact .scanned hroot (.run strategy)

theorem loads_load (provider : Provider) (files : FileSystem) :
    Loads provider files (provider.load files).value := by
  cases hroot : provider.installRoot with
  | none =>
    unfold load
    rw [hroot]
    exact .unconfigured hroot
  | some root =>
    cases hcache : (provider.cache.load files root).value with
    | some catalog =>
      rw [load_of_cache hroot hcache]
      exact .cached hroot hcache
    | none =>
      rw [load_of_miss hroot hcache]
      exact .generated hroot hcache (generates_generateBy provider.strategy provider files)

/-- A scan that fails changes nothing, and one that succeeds is taken over as a whole. -/
theorem Generates.cases {reply : Reply (Except ScanError ScanSummary)}
    (h : Generates strategy provider files reply) :
    (∃ error, reply = ⟨.error error, provider, files⟩) ∨
      ∃ summary catalog after,
        reply = ⟨.ok summary, { provider with definitions := catalog }, after⟩ ∧
          provider.HasScanned files strategy.route summary.folders catalog := by
  cases h with
  | unconfigured hroot => exact Or.inl ⟨_, rfl⟩
  | scanned hroot hends =>
    rcases hends.cases with ⟨error, rfl⟩ | ⟨after, scanned, rfl, hcovers⟩
    · exact Or.inl ⟨error, rfl⟩
    · exact Or.inr ⟨_, _, _, rfl, _, hroot, hcovers⟩

end Provider

namespace Dialogue

variable {start before dialogue next : Dialogue} {request : Request} {response : Response}

/-- The ways in which a request can be answered. -/
inductive Answers (before : Dialogue) : Request → Response × Dialogue → Prop where
  | load {reply : Reply (Except ScanError LoadSource)}
      (hreply : before.provider.Loads before.files reply) :
      Answers before .load (ofReply .loaded reply)
  | generate {reply : Reply (Except ScanError ScanSummary)}
      (hreply : before.provider.Generates before.provider.strategy before.files reply) :
      Answers before .generate (ofReply .generated reply)
  | generateCooperatively {reply : Reply (Except ScanError ScanSummary)}
      (hreply : before.provider.Generates .cooperative before.files reply) :
      Answers before .generateCooperatively (ofReply .generated reply)
  /-- What a scan comes to after the definitions and the cache file are given up. -/
  | reload {reply : Reply (Except ScanError ScanSummary)}
      (hreply : before.provider.dispose.Generates before.provider.strategy
        (before.provider.cache.clear before.files).value.1 reply) :
      Answers before .reload (ofReply .generated reply)
  | clearCache :
      Answers before .clearCache
        (ofReply .cleared (before.provider.clearCache before.files).value)
  | suggestions (line : Text) :
      Answers before (.suggestions line) (.suggested (before.provider.suggestions line), before)
  | dispose :
      Answers before .dispose (.disposed, { before with provider := before.provider.dispose })

theorem answers_respond (dialogue : Dialogue) (request : Request) :
    dialogue.Answers request (dialogue.respond request).value := by
  cases request with
  | load => exact .load (Provider.loads_load _ _)
  | generate => exact .generate (Provider.generates_generateBy _ _ _)
  | generateCooperatively => exact .generateCooperatively (Provider.generates_generateBy _ _ _)
  | reload => exact .reload (Provider.generates_generateBy _ _ _)
  | clearCache => exact .clearCache
  | suggestions line => exact .suggestions line
  | dispose => exact .dispose

/-- What may happen in a dialogue: a request is answered, or somebody changes the file system. -/
inductive Step : Dialogue → Dialogue → Prop where
  | answer {dialogue : Dialogue} {request : Request} {answer : Response × Dialogue}
      (hanswer : dialogue.Answers request answer) : Step dialogue answer.2
  | change (dialogue : Dialogue) (files : FileSystem) : Step dialogue { dialogue with files := files }

/-- What an answer says about the dialogue before and after it. -/
def Fits (before : Dialogue) : Request → Response × Dialogue → Prop
  | .load, (.loaded (.error _), after) => after = before
  | .load, (.loaded (.ok .notConfigured), after) =>
    before.provider.installRoot = none ∧ after = before
  | .load, (.loaded (.ok .cache), after) =>
    before.provider.HasLoaded before.files after.provider.definitions ∧ after.files = before.files
  | .load, (.loaded (.ok (.scan count)), after) =>
    before.provider.HasScanned before.files before.provider.strategy.route count
      after.provider.definitions
  | .generate, (.generated (.error _), after) => after = before
  | .generate, (.generated (.ok summary), after) =>
    before.provider.HasScanned before.files before.provider.strategy.route summary.folders
      after.provider.definitions
  | .generateCooperatively, (.generated (.error _), after) => after = before
  | .generateCooperatively, (.generated (.ok summary), after) =>
    before.provider.HasScanned before.files .tour summary.folders after.provider.definitions
  | .reload, (.generated (.error _), after) =>
    after.provider.definitions = ∅ ∧
      (after.files = before.files ∨
        before.files.removeFile before.provider.cache.path = .ok after.files)
  | .reload, (.generated (.ok summary), after) =>
    before.provider.HasScanned (before.provider.cache.clear before.files).value.1
      before.provider.strategy.route summary.folders after.provider.definitions
  | .clearCache, (.cleared _, after) => after.provider = before.provider
  | .suggestions _, (.suggested _, after) => after = before
  | .dispose, (.disposed, after) => after.provider.definitions = ∅ ∧ after.files = before.files
  | _, _ => False

/-- Whether two dialogues differ in their definitions and files only. -/
def SameSetup (dialogue other : Dialogue) : Prop :=
  dialogue.provider = { other.provider with definitions := dialogue.provider.definitions }

theorem Answers.fits {answer : Response × Dialogue} (h : before.Answers request answer) :
    Fits before request answer ∧ answer.2.SameSetup before := by
  cases h with
  | load hreply =>
    cases hreply with
    | unconfigured hroot => exact ⟨⟨hroot, rfl⟩, rfl⟩
    | cached hroot hcache =>
      obtain ⟨snapshot, hfresh, hcatalog⟩ := CacheFile.exists_isFresh hcache
      exact ⟨⟨⟨_, snapshot, hroot, hfresh, hcatalog⟩, rfl⟩, rfl⟩
    | generated hroot hcache hgenerated =>
      rcases hgenerated.cases with ⟨error, rfl⟩ | ⟨summary, catalog, after, rfl, hscanned⟩
      · exact ⟨rfl, rfl⟩
      · exact ⟨hscanned, rfl⟩
  | generate hreply =>
    rcases hreply.cases with ⟨error, rfl⟩ | ⟨summary, catalog, after, rfl, hscanned⟩
    · exact ⟨rfl, rfl⟩
    · exact ⟨hscanned, rfl⟩
  | generateCooperatively hreply =>
    rcases hreply.cases with ⟨error, rfl⟩ | ⟨summary, catalog, after, rfl, hscanned⟩
    · exact ⟨rfl, rfl⟩
    · exact ⟨hscanned, rfl⟩
  | reload hreply =>
    rcases hreply.cases with ⟨error, rfl⟩ | ⟨summary, catalog, after, rfl, hscanned⟩
    · exact ⟨⟨rfl, before.provider.cache.clear_cases before.files⟩, rfl⟩
    · exact ⟨hscanned, rfl⟩
  | clearCache => exact ⟨rfl, rfl⟩
  | suggestions line => exact ⟨rfl, rfl⟩
  | dispose => exact ⟨⟨rfl, rfl⟩, rfl⟩

/-- The definitions of a dialogue are empty, or a whole catalog that was read or scanned at some
point on the way. -/
def IsWhole (start dialogue : Dialogue) : Prop :=
  dialogue.provider.definitions = ∅ ∨
    ∃ earlier : Dialogue, ReflTransGen Step start earlier ∧ ReflTransGen Step earlier dialogue ∧
      (start.provider.HasLoaded earlier.files dialogue.provider.definitions ∨
        ∃ files route count,
          (files = earlier.files ∨ files = (start.provider.cache.clear earlier.files).value.1) ∧
            start.provider.HasScanned files route count dialogue.provider.definitions)

/-- What the definitions can be after an answer. -/
theorem Fits.definitions_cases {answer : Response × Dialogue} (h : Fits before request answer) :
    answer.2.provider.definitions = before.provider.definitions ∨
      answer.2.provider.definitions = ∅ ∨
      before.provider.HasLoaded before.files answer.2.provider.definitions ∨
      ∃ files route count,
        (files = before.files ∨ files = (before.provider.cache.clear before.files).value.1) ∧
          before.provider.HasScanned files route count answer.2.provider.definitions := by
  unfold Fits at h
  split at h
  · exact Or.inl (congrArg (fun dialogue ↦ dialogue.provider.definitions) h)
  · exact Or.inl (congrArg (fun dialogue ↦ dialogue.provider.definitions) h.2)
  · exact Or.inr (Or.inr (Or.inl h.1))
  · exact Or.inr (Or.inr (Or.inr ⟨_, _, _, Or.inl rfl, h⟩))
  · exact Or.inl (congrArg (fun dialogue ↦ dialogue.provider.definitions) h)
  · exact Or.inr (Or.inr (Or.inr ⟨_, _, _, Or.inl rfl, h⟩))
  · exact Or.inl (congrArg (fun dialogue ↦ dialogue.provider.definitions) h)
  · exact Or.inr (Or.inr (Or.inr ⟨_, _, _, Or.inl rfl, h⟩))
  · exact Or.inr (Or.inl h.1)
  · exact Or.inr (Or.inr (Or.inr ⟨_, _, _, Or.inr rfl, h⟩))
  · exact Or.inl (congrArg Provider.definitions h)
  · exact Or.inl (congrArg (fun dialogue ↦ dialogue.provider.definitions) h)
  · exact Or.inr (Or.inl h.1)
  · exact absurd h not_false

theorem IsWhole.of_definitions_eq (h : IsWhole start dialogue) (hstep : Step dialogue next)
    (hdefinitions : next.provider.definitions = dialogue.provider.definitions) :
    IsWhole start next := by
  rcases h with hempty | ⟨earlier, hearlier, hsince, hwhole⟩
  · exact Or.inl (hdefinitions.trans hempty)
  · rw [← hdefinitions] at hwhole
    exact Or.inr ⟨earlier, hearlier, hsince.tail hstep, hwhole⟩

/-- What holds of every dialogue that can be reached from a given one. -/
structure Sound (start dialogue : Dialogue) : Prop where
  setup : dialogue.SameSetup start
  whole : IsWhole start dialogue

/-- One step. -/
theorem Sound.step (h : Sound start dialogue) (hrun : ReflTransGen Step start dialogue)
    (hstep : Step dialogue next) : Sound start next := by
  obtain ⟨hsetup, hwhole⟩ := h
  have hprovider : dialogue.provider =
      { start.provider with definitions := dialogue.provider.definitions } := hsetup
  cases hstep with
  | change files => exact ⟨hsetup, hwhole.of_definitions_eq (.change dialogue files) rfl⟩
  | answer hanswer =>
    obtain ⟨hfits, hsame⟩ := hanswer.fits
    refine ⟨?_, ?_⟩
    · rw [SameSetup, hsame, hprovider]
    · have hstep := Step.answer hanswer
      rcases hfits.definitions_cases with hkept | hempty | hloaded | hscanned
      · exact hwhole.of_definitions_eq hstep hkept
      · exact Or.inl hempty
      · rw [hprovider] at hloaded
        exact Or.inr ⟨dialogue, hrun, .single hstep, Or.inl hloaded⟩
      · rw [hprovider] at hscanned
        exact Or.inr ⟨dialogue, hrun, .single hstep, Or.inr hscanned⟩

/-- A whole run from a provider without definitions. -/
theorem Sound.run (hfresh : start.provider.definitions = ∅)
    (hrun : ReflTransGen Step start dialogue) : Sound start dialogue := by
  induction hrun with
  | refl => exact ⟨rfl, Or.inl hfresh⟩
  | tail hearlier hstep ih => exact ih.step hearlier hstep

/-- However requests, changes to the file system and breakdowns of workers follow each other, the
definitions of a provider that began without any are empty or a whole catalog, they are empty for
good without an install root, and each answer fits what it does to the provider and the files. -/
theorem sound_of_run (hfresh : start.provider.definitions = ∅)
    (hrun : ReflTransGen Step start dialogue) :
    dialogue.SameSetup start ∧ IsWhole start dialogue ∧
      (start.provider.installRoot = none → dialogue.provider.definitions = ∅) ∧
      ∀ request answer, dialogue.Answers request answer →
        Fits dialogue request answer ∧ answer.2.SameSetup dialogue := by
  obtain ⟨hsetup, hwhole⟩ := Sound.run hfresh hrun
  refine ⟨hsetup, hwhole, ?_, fun request answer hanswer ↦ hanswer.fits⟩
  intro hroot
  rcases hwhole with hempty | ⟨_, _, _, ⟨root, _, hsome, _⟩ | ⟨_, _, _, _, root, hsome, _⟩⟩
  · exact hempty
  · rw [hroot] at hsome
    cases hsome
  · rw [hroot] at hsome
    cases hsome

/-- A dialogue on the small install root. -/
def sampleStart : Dialogue :=
  ⟨Provider.sampleProvider Provider.besideCache .loose, Provider.sampleTree⟩

/-- A provider that has scanned the small install root. -/
theorem sound_of_run_sampleStart :
    let scanned := (sampleStart.respond .generate).value.2
    sampleStart.provider.definitions = ∅ ∧ ReflTransGen Step sampleStart scanned ∧
      scanned.provider.definitions = Provider.sampleCatalog ∧ IsWhole sampleStart scanned ∧
      (scanned.respond .dispose).value.2.provider.definitions = ∅ := by
  intro scanned
  have hrun : ReflTransGen Step sampleStart scanned :=
    .single (.answer (answers_respond sampleStart .generate))
  have hdefinitions : scanned.provider.definitions = Provider.sampleCatalog := by
    have hgenerate := Provider.generate_sampleTree Provider.besideCache (by decide +kernel)
    exact congrArg (fun reply ↦ reply.provider.definitions) hgenerate
  obtain ⟨_, hwhole, _, hanswers⟩ := sound_of_run rfl hrun
  exact ⟨rfl, hrun, hdefinitions, hwhole,
    (hanswers .dispose _ (answers_respond scanned .dispose)).1.1⟩

end Dialogue

end DefCatalog
