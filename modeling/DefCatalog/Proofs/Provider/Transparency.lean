import DefCatalog.Proofs.Cache.Resaving
import DefCatalog.Proofs.Files.Upkeep
import DefCatalog.Proofs.Provider.Dialogue
import DefCatalog.Proofs.Scan.Consulting

/-!
# A cache is transparent

New providers with one configuration load their definitions one after the other. Some take them from
the cache, some have to scan because there is no cache yet, because it could not be saved or because
the folder of mods is newer. As long as a scan does not come upon the cache itself, nobody can tell
the difference: each provider gets what a scan of the files at the beginning would have given it.
-/

namespace DefCatalog

open FileSystem

variable {files after before start : FileSystem} {root : Path} {cache : Option CacheFile}
  {matching : Matching} {strategy : Strategy} {catalog : Catalog} {count : Nat} {time : Instant}

namespace Scan

theorem LooksAlike.refl (hfiles : files.WellFormed) (root : Path) : LooksAlike root files files :=
  ⟨fun _ _ ↦ rfl, rfl, hfiles, hfiles⟩

theorem Covers.unique {route : Route} {count' : Nat} {catalog' : Catalog}
    (h : Covers files root matching route count catalog)
    (h' : Covers files root matching route count' catalog') : count = count' ∧ catalog = catalog' := by
  obtain ⟨folders, hprepare, rfl, rfl⟩ := h
  obtain ⟨folders', hprepare', rfl, rfl⟩ := h'
  rw [hprepare] at hprepare'
  cases hprepare'
  exact ⟨rfl, rfl⟩

/-- What a scan comes to depends on what it consults only. -/
theorem LooksAlike.run_cases (h : LooksAlike root after before) (cache : Option CacheFile)
    (matching : Matching) (strategy : Strategy) :
    (∃ error, (prepare before root).value = .error error ∧
      (run after root cache matching strategy).value = (after, .error error)) ∨
    ∃ count catalog, Covers before root matching strategy.route count catalog ∧ catalog.WellFiled ∧
      (run after root cache matching strategy).value =
        ((keep after root cache catalog).value.1,
          .ok ⟨catalog, count, (keep after root cache catalog).value.2⟩) := by
  have hprepare := h.prepare_eq
  cases hbefore : (prepare before root).value with
  | error error => exact Or.inl ⟨error, rfl, run_of_prepare_error (hprepare ▸ hbefore)⟩
  | ok folders =>
    have hfolders : ∀ folder ∈ folders, folder ∈ (Folder.discover before root).value := by
      rw [value_prepare_eq_ok hbefore]
      exact fun folder hfolder ↦ hfolder
    have hgather := value_gather before matching strategy folders
    refine Or.inr ⟨folders.length, _, ⟨folders, hbefore, rfl, rfl⟩, wellFiled_gather hgather, ?_⟩
    rw [(run_of_prepare cache matching strategy (hprepare ▸ hbefore)).1,
      h.gather_eq strategy hfolders, hgather, conclude_ok]

end Scan

theorem FileSystem.SameAlong.modsUnchangedSince
    (h : SameAlong after before (root / modsName)) (hworking : after.working = before.working)
    (hmods : before.ModsUnchangedSince root time) : after.ModsUnchangedSince root time := by
  unfold ModsUnchangedSince FileSystem.modified at hmods ⊢
  rwa [h.pathExists_eq hworking, h.stat_eq hworking]

theorem FileSystem.sameAlong_at (files : FileSystem) (time : Instant) (path : Path) :
    SameAlong { files with now := time } files path :=
  fun _ _ ↦ rfl

namespace CacheFile

variable {cache : CacheFile} {location : Location}

/-- Whether a cache lies aside: whether a scan that has found something to be scanned consults none
of the free places that saving may take up. -/
def LiesAside (cache : CacheFile) (files : FileSystem) (root : Path) : Prop :=
  ∀ folders, (Scan.prepare files root).value = .ok folders →
    ∀ location, cache.TakesUp files location → files.IsFree location →
      ¬Scan.Consults files root location

/-- Where no link lies in the install root, it is enough that saving takes up nothing there. -/
theorem liesAside_of_outside (hfiles : files.WellFormed)
    (houtside : ∀ top, files.locate root = .ok top →
      (∀ location target, top <:+ location → files.contentAt? location ≠ some (.link target)) ∧
        ∀ location, cache.TakesUp files location → files.IsFree location → ¬top <:+ location) :
    cache.LiesAside files root := by
  intro folders hprepare location htakes hfree hconsults
  obtain ⟨top, _, hroot, _⟩ := pathExists_iff.mp (Scan.value_prepare_eq_ok_iff.mp hprepare).1
  obtain ⟨hplain, hoff⟩ := houtside top hroot
  exact hoff location htakes hfree (Scan.below_of_consults hplain hfiles hroot hconsults hfree)

/-- Whether whatever saving may change lies outside the install root and outside every directory
that a scan lists. -/
def LiesOutside (cache : CacheFile) (files : FileSystem) (root : Path) : Prop :=
  ∀ location, cache.TakesUp files location →
    (∀ top, files.locate root = .ok top → ¬top <:+ location) ∧
      ∀ path directory, Scan.Lists files root path → files.locateDirectory path = .ok directory →
        ¬directory <:+ location

theorem LiesOutside.liesAside (h : cache.LiesOutside files root)
    (hpaths : ∀ path location, Scan.LooksUp files root path → location ∈ files.asked path →
      files.IsFree location → ¬cache.TakesUp files location) : cache.LiesAside files root := by
  intro folders _ location htakes hfree hconsults
  cases hconsults with
  | asked hlooks hasked => exact hpaths _ location hlooks hasked hfree htakes
  | listed hlists hdirectory name =>
    exact (h _ htakes).2 _ _ hlists hdirectory (List.suffix_cons name _)

end CacheFile

namespace Provider

variable {provider : Provider}

/-! ## Loading one after the other -/

/-- The replies to loading at some times, each time by a new copy of the provider, if nothing else
changes the files. -/
def loadsAt (provider : Provider) (files : FileSystem) :
    List Instant → List (Reply (Except ScanError LoadSource))
  | [] => []
  | time :: times =>
    let reply := (provider.load { files with now := time }).value
    reply :: provider.loadsAt reply.files times

/-- Whether a reply to loading is like that to scanning some files: it is good or gives the same
error, and leaves the same provider with the same definitions, so every line is completed in the same
way. -/
structure LikeScan (provider : Provider) (files : FileSystem)
    (reply : Reply (Except ScanError LoadSource)) : Prop where
  answer_eq : reply.answer.map (fun _ ↦ ()) =
    (provider.generate files).value.answer.map fun _ ↦ ()
  provider_eq : reply.provider = (provider.generate files).value.provider
  suggestions_eq : ∀ line, reply.provider.suggestions line =
    (provider.generate files).value.provider.suggestions line

theorem likeScan_of_eq {reply : Reply (Except ScanError LoadSource)}
    (hanswer : reply.answer.map (fun _ ↦ ()) =
      (provider.generate files).value.answer.map fun _ ↦ ())
    (hprovider : reply.provider = (provider.generate files).value.provider) :
    provider.LikeScan files reply :=
  ⟨hanswer, hprovider, fun line ↦ by rw [hprovider]⟩

/-- Whether files are those of the beginning, apart from what loading has saved since. -/
structure Since (provider : Provider) (root : Path) (start files : FileSystem) : Prop where
  wellFormed : files.WellFormed
  sound : provider.cache.IsSound files
  working_eq : files.working = start.working
  /-- Only a scan that has found something to be scanned changes anything. -/
  changed : ∀ location, files.get? location ≠ start.get? location →
    provider.cache.TakesUp start location ∧ start.IsFree location ∧
      ∃ folders, (Scan.prepare start root).value = .ok folders
  takesUp : ∀ location, provider.cache.TakesUp files location →
    provider.cache.TakesUp start location
  /-- Only a record of what a scan of the files at the beginning covers is in the cache. -/
  readFile : ∀ bytes, files.readFile provider.cache.path = .ok bytes → ∃ count catalog time,
    Scan.Covers start root provider.matching provider.strategy.route count catalog ∧
      bytes = Utf8.encode (Snapshot.ofCatalog root time catalog).write

theorem readFile_of_absent {path : Path} {bytes : Bytes}
    (hup : Path.Component.up ∉ path.components) (habsent : files.standsAt path = none) :
    files.readFile path ≠ .ok bytes := by
  obtain ⟨segments, last, hsegments, hname | hidle⟩ := Path.splitOn_cases hup
  · intro hread
    have hstands := (readFile_of_name hsegments hname (isTooLong_of_readFile hread)
      (by simp [habsent])).mp hread
    cases habsent.symm.trans hstands
  · exact readFile_of_idle hsegments hidle

theorem since_start (hup : Path.Component.up ∉ provider.cache.path.components)
    (hfiles : files.WellFormed) (htree : files.IsTree)
    (habsent : files.standsAt provider.cache.path = none)
    (hdraft : ∀ target, files.standsAt provider.cache.draft ≠ some (.link target)) :
    Since provider root files files where
  wellFormed := hfiles
  sound := ⟨htree, hdraft, by simp [habsent]⟩
  working_eq := rfl
  changed := fun _ hchanged ↦ absurd rfl hchanged
  takesUp := fun _ htakes ↦ htakes
  readFile := fun _ hread ↦ absurd hread (readFile_of_absent hup habsent)

namespace Since

theorem at_time (h : Since provider root start files) (time : Instant) :
    Since provider root start { files with now := time } where
  wellFormed := ⟨h.wellFormed.nodup_locations, h.wellFormed.isEntryName⟩
  sound := by
    have hsame := sameContents_at files time
    refine ⟨hsame.isTree h.sound.tree, ?_, ?_⟩
    · rw [hsame.standsAt_eq]
      exact h.sound.draft_ne_link
    · rw [hsame.standsAt_eq]
      exact h.sound.path_file
  working_eq := h.working_eq
  changed := h.changed
  takesUp location htakes :=
    h.takesUp location (htakes.of_sameContents (sameContents_at files time).symm)
  readFile bytes hread := by
    rw [(sameAlong_at files time _).readFile_eq rfl] at hread
    exact h.readFile bytes hread

theorem looksAlike (h : Since provider root start files) (hstart : start.WellFormed)
    (haside : provider.cache.LiesAside start root) : Scan.LooksAlike root files start where
  get?_eq location hconsults := Decidable.not_not.mp fun hchanged ↦ by
    obtain ⟨htakes, hfree, folders, hprepare⟩ := h.changed location hchanged
    exact haside folders hprepare location htakes hfree hconsults
  working_eq := h.working_eq
  wellFormed_after := h.wellFormed
  wellFormed_before := hstart

/-- Saving what a scan covers changes nothing else. -/
theorem save (hup : Path.Component.up ∉ provider.cache.path.components)
    (h : Since provider root start files)
    (hcovers : Scan.Covers start root provider.matching provider.strategy.route count catalog)
    {error : Option CacheSaveError}
    (hsave : (provider.cache.save files root catalog).value = (after, error)) :
    Since provider root start after := by
  have hall := CacheFile.allOrNothing_of_save hup h.sound.tree h.sound.draft_ne_link hsave
  obtain ⟨hsound, hworking, _⟩ := CacheFile.sound_of_save hup h.sound hsave
  constructor
  case wellFormed =>
    have hafter := h.wellFormed.save provider.cache root catalog
    rwa [hsave] at hafter
  case sound => exact hsound
  case working_eq => exact hworking.trans h.working_eq
  case changed =>
    intro location hchanged
    by_cases hsame : files.get? location = start.get? location
    · rw [← hsame] at hchanged
      obtain ⟨folders, hprepare, _⟩ := hcovers
      refine ⟨h.takesUp location (hall.changed location hchanged), ?_, folders, hprepare⟩
      unfold IsFree contentAt?
      rw [← hsame]
      exact CacheFile.isFree_of_save hup h.sound hsave hchanged
    · exact h.changed location hsame
  case takesUp =>
    exact fun location htakes ↦
      h.takesUp location (CacheFile.takesUp_of_save hup h.sound hsave htakes)
  case readFile =>
    intro bytes hread
    rcases (CacheFile.readFile_of_save hup h.sound hsave).1 bytes hread with rfl | hbefore
    · exact ⟨count, catalog, files.now, hcovers, rfl⟩
    · exact h.readFile bytes hbefore

end Since

/-- What scanning and saving comes to. -/
theorem Since.generate (hroot : provider.installRoot = some root)
    (hup : Path.Component.up ∉ provider.cache.path.components) (hstart : start.WellFormed)
    (haside : provider.cache.LiesAside start root) (h : Since provider root start files) :
    ((provider.generate files).value.answer.map (fun _ ↦ ()) =
        (provider.generate start).value.answer.map fun _ ↦ ()) ∧
      (provider.generate files).value.provider = (provider.generate start).value.provider ∧
      Since provider root start (provider.generate files).value.files := by
  have hrun := (h.looksAlike hstart haside).run_cases (some provider.cache) provider.matching
    provider.strategy
  have hrunStart := (Scan.LooksAlike.refl hstart root).run_cases (some provider.cache)
    provider.matching provider.strategy
  unfold Provider.generate
  rw [generateBy_eq_settle hroot, generateBy_eq_settle hroot]
  rcases hrun with ⟨error, herror, hvalue⟩ | ⟨count, catalog, hcovers, _, hvalue⟩
  · rcases hrunStart with ⟨error', herror', hvalueStart⟩ | ⟨_, _, ⟨_, hok, _⟩, _⟩
    · rw [herror] at herror'
      cases herror'
      rw [hvalue, hvalueStart]
      exact ⟨rfl, rfl, h⟩
    · rw [herror] at hok
      cases hok
  · rcases hrunStart with ⟨error', herror', _⟩ | ⟨_, _, hcoversStart, _, hvalueStart⟩
    · obtain ⟨_, hok, _⟩ := hcovers
      rw [herror'] at hok
      cases hok
    · obtain ⟨rfl, rfl⟩ := hcovers.unique hcoversStart
      rw [hvalue, hvalueStart, Scan.value_keep_some, Scan.value_keep_some]
      generalize hsave : (provider.cache.save files root catalog).value = saved
      generalize (provider.cache.save start root catalog).value = savedStart
      obtain ⟨after, error⟩ := saved
      exact ⟨rfl, rfl, h.save hup hcovers hsave⟩

/-- Each load is like a scan of the files at the beginning, and leaves the files as they were, apart
from what it saves. -/
theorem Since.load (hroot : provider.installRoot = some root)
    (hup : Path.Component.up ∉ provider.cache.path.components) (hstart : start.WellFormed)
    (haside : provider.cache.LiesAside start root) (h : Since provider root start files) :
    provider.LikeScan start (provider.load files).value ∧
      Since provider root start (provider.load files).value.files := by
  cases hcache : (provider.cache.load files root).value with
  | none =>
    obtain ⟨hanswer, hprovider, hsince⟩ := h.generate hroot hup hstart haside
    rw [load_of_miss hroot hcache]
    refine ⟨likeScan_of_eq ?_ hprovider, hsince⟩
    rw [← hanswer]
    cases (provider.generate files).value.answer <;> rfl
  | some loaded =>
    obtain ⟨bytes, snapshot, hread, hsnapshot, _, rfl⟩ := CacheFile.load_eq_some_iff.mp hcache
    obtain ⟨count, catalog, time, hcovers, rfl⟩ := h.readFile bytes hread
    rcases (Scan.LooksAlike.refl hstart root).run_cases (some provider.cache) provider.matching
      provider.strategy with ⟨error, herror, _⟩ | ⟨_, _, hcoversStart, hfiled, hvalue⟩
    · obtain ⟨_, hok, _⟩ := hcovers
      rw [herror] at hok
      cases hok
    · obtain ⟨rfl, rfl⟩ := hcovers.unique hcoversStart
      rw [load_of_cache hroot hcache, Snapshot.toCatalog_of_ofBytes? hfiled hsnapshot]
      refine ⟨likeScan_of_eq ?_ ?_, h⟩
      · unfold Provider.generate
        rw [generateBy_eq_settle hroot, hvalue]
        rfl
      · unfold Provider.generate
        rw [generateBy_eq_settle hroot, hvalue]
        rfl

/-- All loads are like a scan of the files at the beginning. -/
theorem Since.loadsAt (hroot : provider.installRoot = some root)
    (hup : Path.Component.up ∉ provider.cache.path.components) (hstart : start.WellFormed)
    (haside : provider.cache.LiesAside start root) (h : Since provider root start files)
    (times : List Instant) :
    ∀ reply ∈ provider.loadsAt files times, provider.LikeScan start reply := by
  induction times generalizing files with
  | nil => exact fun _ hreply ↦ nomatch hreply
  | cons time times ih =>
    obtain ⟨hlike, hsince⟩ := (h.at_time time).load hroot hup hstart haside
    exact List.forall_mem_cons.mpr ⟨hlike, ih hsince⟩

/-- A record of the catalog is used, as long as the folder of mods has not been changed since. -/
theorem load_of_record (hroot : provider.installRoot = some root)
    (hread : files.readFile provider.cache.path =
      .ok (Utf8.encode (Snapshot.ofCatalog root time catalog).write))
    (htime : Timestamp.IsStampable time) (hmods : files.ModsUnchangedSince root time) :
    (provider.load files).value.answer = .ok .cache ∧ (provider.load files).value.files = files := by
  have hfresh : (Snapshot.ofCatalog root time catalog).staleness files root = none :=
    Snapshot.staleness_eq_none_iff.mpr ⟨Nat.le_refl _, rfl, hmods⟩
  have hload : (provider.cache.load files root).value =
      some (Snapshot.ofCatalog root time catalog).toCatalog :=
    CacheFile.load_eq_some_iff.mpr ⟨_, _, hread,
      (CacheFile.isKeepable_ofCatalog htime).ofBytes?_encode, hfresh, rfl⟩
  rw [load_of_cache hroot hload]
  exact ⟨rfl, rfl⟩

theorem loadsAt_of_record (hroot : provider.installRoot = some root)
    (hread : files.readFile provider.cache.path =
      .ok (Utf8.encode (Snapshot.ofCatalog root time catalog).write))
    (htime : Timestamp.IsStampable time) (hmods : files.ModsUnchangedSince root time)
    (times : List Instant) :
    ∀ reply ∈ provider.loadsAt files times, reply.answer = .ok .cache := by
  induction times generalizing files with
  | nil => exact fun _ hreply ↦ nomatch hreply
  | cons now times ih =>
    have hreadNow : { files with now := now }.readFile provider.cache.path = _ :=
      ((sameAlong_at files now _).readFile_eq rfl).trans hread
    have hmodsNow := (sameAlong_at files now _).modsUnchangedSince rfl hmods
    obtain ⟨hanswer, hfiles⟩ := load_of_record hroot hreadNow htime hmodsNow
    refine List.forall_mem_cons.mpr ⟨hanswer, ?_⟩
    rw [hfiles]
    exact ih hreadNow hmodsNow

/-- After a scan that was saved, the record is in the cache. -/
theorem Since.load_of_saved (hroot : provider.installRoot = some root)
    (hup : Path.Component.up ∉ provider.cache.path.components) (hstart : start.WellFormed)
    (haside : provider.cache.LiesAside start root) (h : Since provider root start files)
    (habsent : files.standsAt provider.cache.path = none)
    (hsaved : (provider.generate files).value.answer = .ok ⟨count, none⟩) :
    ∃ catalog, (provider.load files).value.files.readFile provider.cache.path =
      .ok (Utf8.encode (Snapshot.ofCatalog root files.now catalog).write) := by
  have hmiss : (provider.cache.load files root).value = none := by
    cases hload : (provider.cache.load files root).value with
    | none => rfl
    | some loaded =>
      obtain ⟨bytes, _, hread, _⟩ := CacheFile.load_eq_some_iff.mp hload
      exact absurd hread (readFile_of_absent hup habsent)
  rw [load_of_miss hroot hmiss]
  unfold Provider.generate at hsaved ⊢
  rw [generateBy_eq_settle hroot] at hsaved ⊢
  rcases (h.looksAlike hstart haside).run_cases (some provider.cache) provider.matching
    provider.strategy with ⟨error, _, hvalue⟩ | ⟨found, catalog, _, _, hvalue⟩
  · rw [hvalue] at hsaved
    cases hsaved
  · rw [hvalue, Scan.value_keep_some] at hsaved ⊢
    generalize hsave : (provider.cache.save files root catalog).value = saved at hsaved ⊢
    obtain ⟨after, error⟩ := saved
    refine ⟨catalog, (CacheFile.readFile_of_save hup h.sound hsave).2 ?_⟩
    cases hsaved
    rfl

/-- As long as a scan consults nothing that saving may change, a cache at which nothing stands at the
beginning is transparent: each load is like a scan of the files at the beginning. Once the first scan
is saved, and if the folder of mods was not changed later, all further loads use the cache. -/
theorem transparent_loadsAt (hroot : provider.installRoot = some root)
    (hup : Path.Component.up ∉ provider.cache.path.components) (hfiles : files.WellFormed)
    (htree : files.IsTree) (habsent : files.standsAt provider.cache.path = none)
    (hdraft : ∀ target, files.standsAt provider.cache.draft ≠ some (.link target))
    (haside : provider.cache.LiesAside files root) :
    (∀ times, ∀ reply ∈ provider.loadsAt files times, provider.LikeScan files reply) ∧
      ∀ first later count, Timestamp.IsStampable first →
        (provider.generate { files with now := first }).value.answer = .ok ⟨count, none⟩ →
        files.ModsUnchangedSince root first →
        ∀ reply ∈ (provider.loadsAt files (first :: later)).tail, reply.answer = .ok .cache := by
  have hsince : Since provider root files files := since_start hup hfiles htree habsent hdraft
  refine ⟨fun times ↦ hsince.loadsAt hroot hup hfiles haside times, ?_⟩
  intro first later count hfirst hsaved hmods
  have hnow := hsince.at_time first
  have habsentNow : { files with now := first }.standsAt provider.cache.path = none :=
    ((sameContents_at files first).standsAt_eq _).trans habsent
  obtain ⟨_, hafter⟩ := hnow.load hroot hup hfiles haside
  obtain ⟨catalog, hread⟩ := hnow.load_of_saved hroot hup hfiles haside habsentNow hsaved
  have halike := hafter.looksAlike hfiles haside
  have hmodsAfter := (halike.sameAlong (.listed (.browsed .mods))).modsUnchangedSince
    halike.working_eq hmods
  exact loadsAt_of_record hroot hread hfirst hmodsAfter later

/-- Beside the install root, saving may change the cache and its draft only. -/
theorem takesUp_besideCache (hpath : files.entry? besideCache.path = some ["c.json".toList])
    (hdraft : files.entry? besideCache.draft = some ["c.json.tmp".toList]) {location : Location}
    (htakes : besideCache.TakesUp files location) :
    location = ["c.json".toList] ∨ location = ["c.json.tmp".toList] := by
  have hsteps : besideCache.directorySteps files = [] := rfl
  have hprepared : besideCache.prepared files = files := by
    unfold CacheFile.prepared
    rw [hsteps]
    rfl
  apply (CacheFile.entry?_of_takesUp hprepared htakes).imp
  · intro hentry
    exact (Option.some.inj (hpath.symm.trans hentry)).symm
  · intro hentry
    exact (Option.some.inj (hdraft.symm.trans hentry)).symm

theorem liesAside_sampleTree : besideCache.LiesAside sampleTree (Path.ofString "i") := by
  have hfiles : sampleTree.WellFormed := ⟨by decide, by decide⟩
  have hroot : sampleTree.locate (Path.ofString "i") = .ok ["i".toList] := by decide
  have hplain : ∀ location ∈ sampleTree.nodes.map Prod.fst,
      sampleTree.contentAt? location ∈ [some .directory, some (.file sampleDocument)] := by
    decide
  apply CacheFile.liesAside_of_outside hfiles
  intro top htop
  obtain rfl : ["i".toList] = top := Except.ok.inj (hroot.symm.trans htop)
  refine ⟨fun location target _ hlink ↦ ?_, fun location htakes _ ↦ ?_⟩
  · have hcontent := hplain location (mem_locations_iff.mpr ⟨_, hlink⟩)
    rw [hlink] at hcontent
    simp at hcontent
  · cases takesUp_besideCache (by decide) (by decide) htakes with
    | inl hcache =>
      rw [hcache]
      decide
    | inr hdraft =>
      rw [hdraft]
      decide

/-- In the small install root, all loads after the first one use the cache. -/
theorem transparent_loadsAt_sampleTree :
    ((sampleProvider besideCache .loose).installRoot = some (Path.ofString "i") ∧
      Path.Component.up ∉ besideCache.path.components ∧ sampleTree.WellFormed ∧
      sampleTree.IsTree ∧ sampleTree.standsAt besideCache.path = none ∧
      (∀ target, sampleTree.standsAt besideCache.draft ≠ some (.link target)) ∧
      besideCache.LiesAside sampleTree (Path.ofString "i")) ∧
    (∀ times, ∀ reply ∈ (sampleProvider besideCache .loose).loadsAt sampleTree times,
      (sampleProvider besideCache .loose).LikeScan sampleTree reply) ∧
    ∀ later, ∀ reply ∈ ((sampleProvider besideCache .loose).loadsAt sampleTree
      (sampleTree.now :: later)).tail, reply.answer = .ok .cache := by
  have hroot : (sampleProvider besideCache .loose).installRoot = some (Path.ofString "i") := rfl
  have hup : Path.Component.up ∉ (sampleProvider besideCache .loose).cache.path.components := by
    decide
  have hfiles : sampleTree.WellFormed := ⟨by decide, by decide⟩
  have htree : sampleTree.IsTree := by decide
  have habsent : sampleTree.standsAt besideCache.path = none := by decide
  have hnone : sampleTree.standsAt besideCache.draft = none := by decide
  have hdraft : ∀ target, sampleTree.standsAt besideCache.draft ≠ some (.link target) := by
    simp [hnone]
  obtain ⟨hlike, hcached⟩ :=
    transparent_loadsAt hroot hup hfiles htree habsent hdraft liesAside_sampleTree
  have hnow : Timestamp.IsStampable sampleTree.now :=
    ⟨by decide, by decide, Or.inl (by decide)⟩
  have hmods : sampleTree.ModsUnchangedSince (Path.ofString "i") sampleTree.now :=
    Or.inl (by decide)
  have hsaved := answer_sampleTree besideCache saves_sampleTree
  exact ⟨⟨hroot, hup, hfiles, htree, habsent, hdraft, liesAside_sampleTree⟩, hlike,
    fun later ↦ hcached sampleTree.now later 1 hnow hsaved hmods⟩

/-! ## Links to a cache -/

/-- A document that tells of another kind in the name of an element. -/
def nestedDocument : Bytes :=
  Utf8.encode "<ThingDef Name=\"<RecipeDef><defName>Y</defName>\"/>".toList

def nestedFound : List Definition :=
  [⟨"thing".toList, "Y".toList⟩, ⟨"thing".toList, "<RecipeDef><defName>Y</defName>".toList⟩]

/-- Where the documents of the mod lie. -/
def modDefs : Location :=
  ["Defs".toList, "A".toList, "Mods".toList, "i".toList]

def modFolder : Folder :=
  ⟨Path.ofString "i/Mods/A/Defs", "A".toList⟩

/-- An install root in which a link beside the document leads to the cache that is not there yet.
The folder of mods is newer than anything that is saved. -/
def cacheLinked : FileSystem where
  nodes :=
    [([], ⟨.directory, ⟨10, 0⟩⟩), (["i".toList], ⟨.directory, ⟨10, 0⟩⟩),
      (["Mods".toList, "i".toList], ⟨.directory, ⟨30, 0⟩⟩),
      (["A".toList, "Mods".toList, "i".toList], ⟨.directory, ⟨10, 0⟩⟩),
      (modDefs, ⟨.directory, ⟨10, 0⟩⟩),
      ("a.xml".toList :: modDefs, ⟨.file nestedDocument, ⟨10, 0⟩⟩),
      ("x.xml".toList :: modDefs, ⟨.link (Path.ofString "../../../../c.json"), ⟨10, 0⟩⟩)]
  working := []
  now := ⟨20, 0⟩

/-- The files after the catalog of the document has been saved. -/
def recordLinked : FileSystem :=
  (Scan.keep cacheLinked (Path.ofString "i") (some besideCache)
    (Catalog.insertAll ∅ nestedFound)).value.1

/-- What is read through the link then. -/
def linkedRecord : Bytes :=
  Utf8.encode (Snapshot.ofCatalog (Path.ofString "i") ⟨20, 0⟩
    (Catalog.insertAll ∅ nestedFound)).write

/-- Whether a file system has the document of the mod and one entry beside it. -/
def HasNested (files : FileSystem) : Prop :=
  (Scan.prepare files (Path.ofString "i")).value = .ok [modFolder] ∧
    files.locateDirectory modFolder.path = .ok modDefs ∧
    files.childNames modDefs = ["a.xml".toList, "x.xml".toList] ∧
    files.locate (modFolder.path / "a.xml") = .ok ("a.xml".toList :: modDefs) ∧
    files.contentAt? ("a.xml".toList :: modDefs) = some (.file nestedDocument)

/-- What is scanned where the document of the mod and one entry beside it lie. -/
theorem generate_of_hasNested {beside : List Encounter} {found : List Definition}
    (h : HasNested files)
    (hbeside : files.tourFrom [modDefs] [modFolder.path / "x.xml"] = beside)
    (hfound : beside.flatMap (Encounter.definitions .loose) = found)
    (hkeep : (Scan.keep files (Path.ofString "i") (some besideCache)
      (Catalog.insertAll ∅ (nestedFound ++ found))).value = (after, none)) :
    ((sampleProvider besideCache .loose).generate files).value = ⟨.ok ⟨1, none⟩,
      { sampleProvider besideCache .loose with
        definitions := Catalog.insertAll ∅ (nestedFound ++ found) }, after⟩ := by
  obtain ⟨hprepare, hdirectory, hnames, hpath, hcontent⟩ := h
  have hdocument : Encounter.ofFile files (modFolder.path / "a.xml") =
      [.document (modFolder.path / "a.xml") nestedDocument] :=
    Encounter.ofFile_of_locate hpath hcontent (by decide)
  have hnested : Encounter.definitions .loose
      (.document (modFolder.path / "a.xml") nestedDocument) = nestedFound := by decide +kernel
  have hsorted : files.sortedNames modDefs = ["a.xml".toList, "x.xml".toList] := by
    unfold sortedNames
    rw [hnames]
    exact List.mergeSort_of_pairwise (by decide)
  have hroot : (sampleProvider besideCache .loose).installRoot = some (Path.ofString "i") := rfl
  have hstrategy : (sampleProvider besideCache .loose).strategy = .cooperative := rfl
  have hmatching : (sampleProvider besideCache .loose).matching = .loose := rfl
  have htour : files.tour modFolder.path =
      .document (modFolder.path / "a.xml") nestedDocument :: beside := by
    unfold tour listing
    rw [hdirectory]
    dsimp only
    rw [hsorted]
    refine (tourFrom_file hpath hcontent).trans ?_
    rw [hdocument, ← hbeside]
    rfl
  apply generate_of_tour hroot hstrategy hprepare htour _ hkeep
  rw [hmatching, List.flatMap_cons, hnested, hfound]

/-- The link leads to nothing at first. -/
theorem locate_cacheLinked :
    cacheLinked.locate (modFolder.path / "x.xml") = .error .notFound := by
  decide +kernel

theorem generate_cacheLinked :
    ((sampleProvider besideCache .loose).generate cacheLinked).value = ⟨.ok ⟨1, none⟩,
      { sampleProvider besideCache .loose with definitions := Catalog.insertAll ∅ nestedFound },
      recordLinked⟩ := by
  have hnested : HasNested cacheLinked := by
    refine ⟨?_, ?_, ?_, ?_, ?_⟩ <;> decide +kernel
  have hbeside : cacheLinked.tourFrom [modDefs] [modFolder.path / "x.xml"] =
      [.skipped (.unreadable (modFolder.path / "x.xml") .notFound)] := by
    rw [tourFrom_cons, locate_cacheLinked]
    dsimp only
    rw [tourFrom_nil]
  have hkeep : (Scan.keep cacheLinked (Path.ofString "i") (some besideCache)
      (Catalog.insertAll ∅ nestedFound)).value.2 = none := by
    decide +kernel
  exact generate_of_hasNested hnested hbeside rfl (Prod.ext rfl hkeep)

theorem generate_recordLinked :
    ((sampleProvider besideCache .loose).generate recordLinked).value.provider.definitions =
      Catalog.insertAll ∅ (nestedFound ++ [⟨"recipe".toList, "Y".toList⟩]) := by
  have hnested : HasNested recordLinked := by
    refine ⟨?_, ?_, ?_, ?_, ?_⟩ <;> decide +kernel
  have hpath : recordLinked.locate (modFolder.path / "x.xml") = .ok ["c.json".toList] := by
    decide +kernel
  have hcontent : recordLinked.contentAt? ["c.json".toList] = some (.file linkedRecord) := by
    decide +kernel
  have hdocument : Encounter.ofFile recordLinked (modFolder.path / "x.xml") =
      [.document (modFolder.path / "x.xml") linkedRecord] :=
    Encounter.ofFile_of_locate hpath hcontent (by decide)
  have hbeside : recordLinked.tourFrom [modDefs] [modFolder.path / "x.xml"] =
      [.document (modFolder.path / "x.xml") linkedRecord] := by
    rw [tourFrom_file hpath hcontent, tourFrom_nil, hdocument]
    rfl
  have hfound : [Encounter.document (modFolder.path / "x.xml") linkedRecord].flatMap
      (Encounter.definitions .loose) = [⟨"recipe".toList, "Y".toList⟩] := by
    decide +kernel
  have hkeep : (Scan.keep recordLinked (Path.ofString "i") (some besideCache)
      (Catalog.insertAll ∅ (nestedFound ++ [⟨"recipe".toList, "Y".toList⟩]))).value.2 = none := by
    decide +kernel
  rw [generate_of_hasNested hnested hbeside hfound (Prod.ext rfl hkeep)]

theorem loadsAt_cacheLinked : ∃ first second,
    (sampleProvider besideCache .loose).loadsAt cacheLinked [⟨20, 0⟩, ⟨20, 0⟩] = [first, second] ∧
      first.provider.definitions ≠ second.provider.definitions := by
  have hroot : (sampleProvider besideCache .loose).installRoot = some (Path.ofString "i") := rfl
  have habsent : (besideCache.load cacheLinked (Path.ofString "i")).value = none := by
    decide
  have hstale : (besideCache.load recordLinked (Path.ofString "i")).value = none := by
    decide +kernel
  have hnow : recordLinked.now = ⟨20, 0⟩ := by decide +kernel
  have hfirst := load_of_miss hroot habsent
  have hsecond := load_of_miss hroot hstale
  rw [generate_cacheLinked] at hfirst
  have hfiles : ((sampleProvider besideCache .loose).load cacheLinked).value.files =
      recordLinked := by
    rw [hfirst]
  refine ⟨((sampleProvider besideCache .loose).load cacheLinked).value,
    ((sampleProvider besideCache .loose).load recordLinked).value, ?_, ?_⟩
  · have hagain : { recordLinked with now := ⟨20, 0⟩ } = recordLinked := by
      rw [← hnow]
    have hhead : (sampleProvider besideCache .loose).loadsAt cacheLinked [⟨20, 0⟩, ⟨20, 0⟩] =
        ((sampleProvider besideCache .loose).load cacheLinked).value ::
          (sampleProvider besideCache .loose).loadsAt
            ((sampleProvider besideCache .loose).load cacheLinked).value.files [⟨20, 0⟩] := rfl
    have hlast : (sampleProvider besideCache .loose).loadsAt recordLinked [⟨20, 0⟩] =
        [((sampleProvider besideCache .loose).load { recordLinked with now := ⟨20, 0⟩ }).value] :=
      rfl
    rw [hhead, hfiles, hlast, hagain]
  · rw [hfirst, hsecond, generate_recordLinked]
    decide

theorem directory_of_liesBelow_modFolder {path : Path} (h : cacheLinked.LiesBelow modFolder.path path)
    {directory : Location} (hdirectory : cacheLinked.locateDirectory path = .ok directory) :
    directory = modDefs := by
  have hmod : cacheLinked.locateDirectory modFolder.path = .ok modDefs := by decide
  have hentries : ∀ name ∈ cacheLinked.childNames modDefs,
      ∃ reason, cacheLinked.locateDirectory (modFolder.path.join ⟨name⟩) = .error reason := by
    have hnames : cacheLinked.childNames modDefs = ["a.xml".toList, "x.xml".toList] := by
      decide
    have hlink : cacheLinked.locateDirectory (modFolder.path / "x.xml") = .error .notFound := by
      rw [locateDirectory, locate_cacheLinked]
    rw [hnames, List.forall_mem_cons, List.forall_mem_singleton]
    exact ⟨⟨.notDirectory, by decide⟩, ⟨.notFound, hlink⟩⟩
  suffices path = modFolder.path by
    rw [this, hmod] at hdirectory
    exact (Except.ok.inj hdirectory).symm
  induction h generalizing directory with
  | here => rfl
  | entry _ houter hname ih =>
    have hpath := ih houter
    rw [hpath] at houter hdirectory
    obtain rfl := Except.ok.inj (hmod.symm.trans houter)
    obtain ⟨reason, hreason⟩ := hentries _ (List.mem_mergeSort.mp hname)
    rw [hreason] at hdirectory
    cases hdirectory

/-- The directories that a scan lists. -/
theorem mem_of_lists_cacheLinked {path : Path} {directory : Location}
    (hlists : Scan.Lists cacheLinked (Path.ofString "i") path)
    (hdirectory : cacheLinked.locateDirectory path = .ok directory) :
    directory ∈ [["Mods".toList, "i".toList], ["A".toList, "Mods".toList, "i".toList], modDefs] := by
  cases hlists with
  | browsed hbrowses =>
    cases hbrowses with
    | data =>
      have hdata : cacheLinked.locateDirectory (Path.ofString "i" / Folder.dataName) =
          .error .notFound := by decide
      rw [hdata] at hdirectory
      cases hdirectory
    | mods =>
      have hmods : cacheLinked.locateDirectory (Path.ofString "i" / modsName) =
          .ok ["Mods".toList, "i".toList] := by decide
      rw [hmods] at hdirectory
      cases hdirectory
      decide
    | mod hmod =>
      have hfolders : (Folder.subfolders cacheLinked (Path.ofString "i" / modsName)).value =
          [⟨Path.ofString "i/Mods/A", "A".toList⟩] := by decide +kernel
      have hlocate : cacheLinked.locateDirectory (Path.ofString "i/Mods/A") =
          .ok ["A".toList, "Mods".toList, "i".toList] := by decide
      rw [hfolders, List.mem_singleton] at hmod
      rw [hmod, hlocate] at hdirectory
      cases hdirectory
      decide
  | gathered hfolder hbelow =>
    have hfolders : (Folder.discover cacheLinked (Path.ofString "i")).value = [modFolder] := by
      decide +kernel
    rw [hfolders, List.mem_singleton] at hfolder
    rw [hfolder] at hbelow
    rw [directory_of_liesBelow_modFolder hbelow hdirectory]
    decide

theorem liesOutside_cacheLinked : besideCache.LiesOutside cacheLinked (Path.ofString "i") := by
  intro location htakes
  have hroot : cacheLinked.locate (Path.ofString "i") = .ok ["i".toList] := by decide
  have houtside : ∀ directory ∈ [["i".toList], ["Mods".toList, "i".toList],
      ["A".toList, "Mods".toList, "i".toList], modDefs], ¬directory <:+ location := by
    cases takesUp_besideCache (by decide) (by decide) htakes with
    | inl hcache =>
      rw [hcache]
      decide
    | inr hdraft =>
      rw [hdraft]
      decide
  refine ⟨fun top htop ↦ houtside top ?_, fun path directory hlists hdirectory ↦ ?_⟩
  · rw [hroot] at htop
    cases htop
    exact List.mem_cons_self
  · exact houtside directory (List.mem_cons_of_mem _ (mem_of_lists_cacheLinked hlists hdirectory))

/-- A cache outside the install root and outside of all directories that are scanned need not be
transparent: not if a link in one of these leads to it. -/
theorem not_transparent_of_link :
    ¬∀ (files : FileSystem) (provider : Provider) (root : Path) (times : List Instant),
      provider.installRoot = some root → Path.Component.up ∉ provider.cache.path.components →
        files.WellFormed → files.IsTree → files.standsAt provider.cache.path = none →
          (∀ target, files.standsAt provider.cache.draft ≠ some (.link target)) →
            provider.cache.LiesOutside files root →
              ∀ first ∈ provider.loadsAt files times, ∀ second ∈ provider.loadsAt files times,
                first.provider.definitions = second.provider.definitions := by
  intro h
  obtain ⟨first, second, hloads, hne⟩ := loadsAt_cacheLinked
  have hfiles : cacheLinked.WellFormed := ⟨by decide, by decide⟩
  have hnone : cacheLinked.standsAt besideCache.draft = none := by decide
  have hdraft : ∀ target, cacheLinked.standsAt besideCache.draft ≠ some (.link target) := by
    simp [hnone]
  have hsame := h cacheLinked (sampleProvider besideCache .loose) (Path.ofString "i")
    [⟨20, 0⟩, ⟨20, 0⟩] rfl (by decide) hfiles (by decide) (by decide) hdraft
    liesOutside_cacheLinked
  rw [hloads] at hsame
  exact hne (hsame first List.mem_cons_self second (List.mem_cons_of_mem _ List.mem_cons_self))

end Provider

end DefCatalog
