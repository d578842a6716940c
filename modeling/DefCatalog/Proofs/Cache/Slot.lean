import DefCatalog.Proofs.Cache.RoundTrip
import DefCatalog.Proofs.Cache.Saving

/-!
# A cache is a slot

Over whole runs a cache file behaves as a slot for one saved catalog. Saving fills the slot unless
it fails, clearing empties it, and loading gives the catalog that was saved last, for the root that
it was saved for and as long as the folder of mods there has not been changed since. In between,
anything may happen to the file system, except to the file, its draft and the way to them.
-/

namespace DefCatalog

open FileSystem

/-- Whether there is no folder of mods under an install root, or it was not changed after a time. -/
def FileSystem.ModsUnchangedSince (files : FileSystem) (root : Path) (time : Instant) : Prop :=
  files.pathExists (root / modsName) = false ∨
    ∃ modified, files.modified (root / modsName) = .ok modified ∧ ¬time < modified

theorem Snapshot.staleness_eq_none_iff {snapshot : Snapshot} {files : FileSystem} {root : Path} :
    snapshot.staleness files root = none ↔ snapshot.version ≤ currentVersion ∧
      snapshot.root.SamePlace root ∧ files.ModsUnchangedSince root snapshot.builtAt := by
  unfold staleness ModsUnchangedSince pathExists FileSystem.modified
  by_cases hversion : currentVersion < snapshot.version
  · simp [hversion, Nat.not_le_of_lt hversion]
  · by_cases hroot : snapshot.root.SamePlace root
    · cases files.stat (root / modsName) <;> simp [hversion, hroot, Nat.le_of_not_lt hversion]
    · simp [hversion, hroot]

namespace CacheFile

variable {cache : CacheFile} {files after : FileSystem} {root : Path} {catalog : Catalog}
  {before front : List Text} {name : Text}

theorem isKeepable_ofCatalog {builtAt : Instant} (h : Timestamp.IsStampable builtAt) :
    (Snapshot.ofCatalog root builtAt catalog).IsKeepable where
  version_lt := (by decide : Snapshot.currentVersion < Snapshot.versionBound)
  builtAt := h

theorem clear_eq_true_iff : (cache.clear files).value.2 = true ↔
    ∃ after, files.removeFile cache.path = .ok after := by
  unfold clear
  cases files.removeFile cache.path with
  | ok after => simp
  | error reason => cases reason <;> simp

/-- What was put into a slot. -/
structure Saved where
  root : Path
  catalog : Catalog
  filed : catalog.WellFiled
  builtAt : Instant

def Saved.bytes (saved : Saved) : Bytes :=
  Utf8.encode (Snapshot.ofCatalog saved.root saved.builtAt saved.catalog).write

/-- What can happen to a cache and the files around it. -/
inductive Event where
  | save (root : Path) (catalog : Catalog) (filed : catalog.WellFiled)
  | clear
  | load (root : Path)
  | isPresent
  /-- Something else changes the file system, or time passes. -/
  | change (edit : FileSystem → FileSystem)

/-- The files, and what the last save that succeeded has put into the slot, unless the slot was
cleared since. -/
structure Session where
  files : FileSystem
  slot : Option Saved

/-- The session after an event. -/
def step (cache : CacheFile) (session : Session) : Event → Session
  | .save root catalog filed =>
    match (cache.save session.files root catalog).value with
    | (after, none) => ⟨after, some ⟨root, catalog, filed, session.files.now⟩⟩
    | (after, some _) => ⟨after, session.slot⟩
  | .clear =>
    match (cache.clear session.files).value with
    | (after, true) => ⟨after, none⟩
    | (after, false) => ⟨after, session.slot⟩
  | .load _ => session
  | .isPresent => session
  | .change edit => ⟨edit session.files, session.slot⟩

/-- The session after some events. -/
def run (cache : CacheFile) (session : Session) (events : List Event) : Session :=
  events.foldl cache.step session

variable {session : Session}

theorem step_save_cases (filed : catalog.WellFiled) :
    (∃ after, (cache.save session.files root catalog).value = (after, none) ∧
      cache.step session (.save root catalog filed) =
        ⟨after, some ⟨root, catalog, filed, session.files.now⟩⟩) ∨
    (∃ after error, (cache.save session.files root catalog).value = (after, some error) ∧
      cache.step session (.save root catalog filed) = ⟨after, session.slot⟩) := by
  obtain ⟨after, error, hsave⟩ : ∃ after error,
      (cache.save session.files root catalog).value = (after, error) := ⟨_, _, rfl⟩
  cases error with
  | none => exact Or.inl ⟨after, hsave, by simp only [step, hsave]⟩
  | some error => exact Or.inr ⟨after, error, hsave, by simp only [step, hsave]⟩

theorem step_clear_cases (cache : CacheFile) (session : Session) :
    (∃ after, session.files.removeFile cache.path = .ok after ∧
      cache.step session .clear = ⟨after, none⟩) ∨
    ((∀ after, session.files.removeFile cache.path ≠ .ok after) ∧
      cache.step session .clear = session) := by
  unfold step clear
  cases session.files.removeFile cache.path with
  | ok after => exact Or.inl ⟨after, rfl, rfl⟩
  | error reason => cases reason <;> exact Or.inr ⟨nofun, rfl⟩

/-- Whether saving finds a file system that is a tree, a draft that is no link and a clock that
shows a time with a timestamp. -/
structure IsReady (cache : CacheFile) (files : FileSystem) : Prop where
  tree : files.IsTree
  draft_ne_link : ∀ target, files.standsAt cache.draft ≠ some (.link target)
  now : Timestamp.IsStampable files.now

theorem isReady_of_standsAt {content : Option Content} (htree : files.IsTree)
    (hdraft : files.standsAt cache.draft = content)
    (hlink : ∀ target, content ≠ some (.link target)) {now : Instant} (hnow : files.now = now)
    (hstampable : Timestamp.IsStampable now) : cache.IsReady files :=
  ⟨htree, hdraft ▸ hlink, hnow ▸ hstampable⟩

/-- Whether an event spares the cache. A change from outside does if what stands at the path of the
cache is the same before and after, as it is if neither the entry nor the way to it is touched. -/
def Event.Spares (cache : CacheFile) (files : FileSystem) : Event → Prop
  | .change edit =>
    cache.IsReady (edit files) ∧ (edit files).standsAt cache.path = files.standsAt cache.path
  | _ => True

/-- Whether each of some events spares the cache as it then is. -/
def Undisturbed (cache : CacheFile) : Session → List Event → Prop
  | _, [] => True
  | session, event :: events =>
    event.Spares cache session.files ∧ cache.Undisturbed (cache.step session event) events

/-- Whether a cache answers as its slot says, and clearing it and asking it change the slot only as
they should. -/
structure BehavesAsSlot (cache : CacheFile) (session : Session) : Prop where
  load_iff : ∀ root catalog, (cache.load session.files root).value = some catalog ↔
    ∃ saved, session.slot = some saved ∧ saved.catalog = catalog ∧ saved.root.SamePlace root ∧
      session.files.ModsUnchangedSince root saved.builtAt
  isPresent_eq : cache.isPresent session.files = session.slot.isSome
  clear_eq : (cache.clear session.files).value.2 = session.slot.isSome
  slot_clear : (cache.step session .clear).slot = none
  step_load : ∀ root, cache.step session (.load root) = session

/-- Whether reading and removing the file of a cache show what its slot holds. -/
structure Shows (cache : CacheFile) (session : Session) : Prop where
  readFile_iff : ∀ bytes, session.files.readFile cache.path = .ok bytes ↔
    ∃ saved, session.slot = some saved ∧ saved.bytes = bytes
  removeFile_iff : (∃ after, session.files.removeFile cache.path = .ok after) ↔
    session.slot.isSome = true
  isStampable : ∀ saved, session.slot = some saved → Timestamp.IsStampable saved.builtAt

theorem Shows.load_iff (h : cache.Shows session) :
    (cache.load session.files root).value = some catalog ↔
      ∃ saved, session.slot = some saved ∧ saved.catalog = catalog ∧ saved.root.SamePlace root ∧
        session.files.ModsUnchangedSince root saved.builtAt := by
  have hsnapshot (saved : Saved) (hslot : session.slot = some saved) :
      Snapshot.ofBytes? saved.bytes =
        some (Snapshot.ofCatalog saved.root saved.builtAt saved.catalog) :=
    (isKeepable_ofCatalog (h.isStampable saved hslot)).ofBytes?_encode
  rw [load_eq_some_iff]
  constructor
  · rintro ⟨bytes, snapshot, hbytes, hread, hfresh, rfl⟩
    obtain ⟨saved, hslot, rfl⟩ := (h.readFile_iff bytes).mp hbytes
    cases hread.symm.trans (hsnapshot saved hslot)
    obtain ⟨_, hroot, hmods⟩ := Snapshot.staleness_eq_none_iff.mp hfresh
    exact ⟨saved, hslot, (Catalog.ofEntries_entries saved.filed).symm, hroot, hmods⟩
  · rintro ⟨saved, hslot, rfl, hroot, hmods⟩
    refine ⟨saved.bytes, _, (h.readFile_iff _).mpr ⟨saved, hslot, rfl⟩, hsnapshot saved hslot, ?_,
      Catalog.ofEntries_entries saved.filed⟩
    exact Snapshot.staleness_eq_none_iff.mpr ⟨Nat.le_refl _, hroot, hmods⟩

theorem Shows.behavesAsSlot (h : cache.Shows session) : cache.BehavesAsSlot session := by
  constructor
  case load_iff => exact fun root catalog ↦ h.load_iff
  case isPresent_eq =>
    rw [isPresent, Bool.eq_iff_iff, isFile_iff, Option.isSome_iff_exists]
    constructor
    · rintro ⟨bytes, hbytes⟩
      obtain ⟨saved, hslot, _⟩ := (h.readFile_iff bytes).mp hbytes
      exact ⟨saved, hslot⟩
    · rintro ⟨saved, hslot⟩
      exact ⟨saved.bytes, (h.readFile_iff _).mpr ⟨saved, hslot, rfl⟩⟩
  case clear_eq => exact Bool.eq_iff_iff.mpr (clear_eq_true_iff.trans h.removeFile_iff)
  case slot_clear =>
    rcases step_clear_cases cache session with ⟨after, _, hstep⟩ | ⟨hfailed, hstep⟩
    · rw [hstep]
    · rw [hstep, ← Option.not_isSome_iff_eq_none, ← h.removeFile_iff]
      rintro ⟨after, hremove⟩
      exact hfailed after hremove
  case step_load => exact fun root ↦ rfl

/-- Whether what was saved last stands at the path of the cache, and nothing if the slot is
empty. -/
structure Holds (cache : CacheFile) (session : Session) : Prop where
  ready : cache.IsReady session.files
  standsAt_path : session.files.standsAt cache.path =
    session.slot.map fun saved ↦ .file saved.bytes
  isStampable : ∀ saved, session.slot = some saved → Timestamp.IsStampable saved.builtAt

theorem Holds.sound (h : cache.Holds session) : cache.IsSound session.files where
  tree := h.ready.tree
  draft_ne_link := h.ready.draft_ne_link
  path_file content hcontent := by
    rw [h.standsAt_path, Option.map_eq_some_iff] at hcontent
    obtain ⟨saved, _, rfl⟩ := hcontent
    exact ⟨saved.bytes, rfl⟩

theorem IsSound.isReady (h : cache.IsSound after) (hnow : Timestamp.IsStampable after.now) :
    cache.IsReady after :=
  ⟨h.tree, h.draft_ne_link, hnow⟩

theorem Holds.step (hlayout : Layout cache front name) (h : cache.Holds session) {event : Event}
    (hevent : event.Spares cache session.files) : cache.Holds (cache.step session event) := by
  cases event with
  | save root catalog filed =>
    rcases step_save_cases filed with ⟨after, hsave, hstep⟩ | ⟨after, error, hsave, hstep⟩
    · obtain ⟨hsound, hnow, hstands⟩ := hlayout.save h.sound root catalog hsave
      rw [hstep]
      refine ⟨hsound.isReady (hnow ▸ h.ready.now), hstands, ?_⟩
      rintro saved ⟨⟩
      exact h.ready.now
    · obtain ⟨hsound, hnow, hstands⟩ := hlayout.save h.sound root catalog hsave
      rw [hstep]
      exact ⟨hsound.isReady (hnow ▸ h.ready.now), hstands.trans h.standsAt_path, h.isStampable⟩
  | clear =>
    rcases step_clear_cases cache session with ⟨after, hremove, hstep⟩ | ⟨_, hstep⟩
    · obtain ⟨hsound, hnow, hstands⟩ := hlayout.removeFile h.sound hremove
      rw [hstep]
      exact ⟨hsound.isReady (hnow ▸ h.ready.now), hstands, nofun⟩
    · rw [hstep]
      exact h
  | load root => exact h
  | isPresent => exact h
  | change edit => exact ⟨hevent.1, hevent.2.trans h.standsAt_path, h.isStampable⟩

theorem Holds.shows (hsegments : Text.splitOn '/' cache.path.spelling = before ++ [name])
    (hname : IsName name) (hshort : cache.path.isTooLong = false) (h : cache.Holds session) :
    cache.Shows session where
  readFile_iff bytes := by
    have hlink (target : Path) : session.files.standsAt cache.path ≠ some (.link target) := by
      simp [h.standsAt_path]
    rw [readFile_of_name hsegments hname hshort hlink, h.standsAt_path]
    simp
  removeFile_iff := by
    rw [removeFile_isOk_iff hshort, h.standsAt_path, Option.isSome_iff_exists]
    simp
  isStampable := h.isStampable

/-- Whether no file can be read, removed or put at the path of a cache, whatever there is. -/
structure IsShut (cache : CacheFile) : Prop where
  readFile_ne : ∀ (files : FileSystem) (bytes : Bytes), files.readFile cache.path ≠ .ok bytes
  removeFile_ne : ∀ files after : FileSystem, files.removeFile cache.path ≠ .ok after
  rename_ne : ∀ (files after : FileSystem) (source : Path),
    files.rename source cache.path ≠ .ok after

theorem isShut_of_dot (hsegments : Text.splitOn '/' cache.path.spelling = before ++ [['.']]) :
    cache.IsShut where
  readFile_ne files bytes := readFile_of_idle hsegments rfl
  removeFile_ne files after hremove := by
    obtain ⟨_, location, _, hentry, _⟩ := removeFile_eq_ok_iff.mp hremove
    cases hentry.symm.trans (entry?_of_idle hsegments rfl)
  rename_ne files after source hrename := by
    obtain ⟨_, _, _, _, _, _, _, _, htarget, _⟩ := rename_cases hrename
    cases (entry?_of_lastStep htarget).symm.trans (entry?_of_idle hsegments rfl)

theorem isShut_of_isTooLong (hlong : cache.path.isTooLong = true) : cache.IsShut where
  readFile_ne files bytes hread := by
    rw [isTooLong_of_readFile hread] at hlong
    cases hlong
  removeFile_ne files after hremove := by
    rw [(removeFile_eq_ok_iff.mp hremove).1] at hlong
    cases hlong
  rename_ne files after source hrename := by
    rw [isTooLong_of_rename hrename] at hlong
    cases hlong

theorem IsShut.shows (h : cache.IsShut) (hslot : session.slot = none) : cache.Shows session where
  readFile_iff bytes := by
    rw [hslot]
    simp [h.readFile_ne session.files bytes]
  removeFile_iff := by
    rw [hslot]
    simp [h.removeFile_ne session.files]
  isStampable := by
    rw [hslot]
    exact nofun

theorem IsShut.slot_step (h : cache.IsShut) (hslot : session.slot = none) (event : Event) :
    (cache.step session event).slot = none := by
  cases event with
  | save root catalog filed =>
    rcases step_save_cases filed with ⟨after, hsave, _⟩ | ⟨after, error, _, hstep⟩
    · obtain ⟨_, _, _, hrename⟩ := save_eq_none hsave
      exact absurd hrename (h.rename_ne _ _ _)
    · rw [hstep]
      exact hslot
  | clear =>
    rcases step_clear_cases cache session with ⟨after, _, hstep⟩ | ⟨_, hstep⟩
    · rw [hstep]
    · rw [hstep]
      exact hslot
  | load root => exact hslot
  | isPresent => exact hslot
  | change edit => exact hslot

/-- A path with a file name and no slash at its end, which does not go up, ends in a name or a
dot. -/
theorem splitOn_path_cases {path : Path} (hname : path.fileName?.isSome)
    (hslash : path.spelling.getLast? ≠ some '/') (hup : Path.Component.up ∉ path.components) :
    ∃ before last, Text.splitOn '/' path.spelling = before ++ [last] ∧
      (IsName last ∨ last = ['.']) := by
  obtain ⟨before, last, hsegments, hlast⟩ := Path.splitOn_cases hup
  refine ⟨before, last, hsegments, ?_⟩
  have hempty : last ≠ [] := by
    rintro rfl
    rcases Text.getLast?_of_splitOn (by rw [hsegments, List.getLast?_concat]) with hspelling | hend
    · obtain ⟨spelling⟩ := path
      subst hspelling
      revert hname
      decide
    · exact hslash hend
  exact hlast.imp_right fun hidle ↦ by simpa [Path.isIdle, hempty] using hidle

/-- What events that spare a cache keep one by one holds after a run. -/
theorem Undisturbed.induction {P : Session → Prop}
    (hstep : ∀ session event, P session → event.Spares cache session.files →
      P (cache.step session event)) {events : List Event} (hstart : P session)
    (hevents : cache.Undisturbed session events) : P (cache.run session events) := by
  induction events generalizing session with
  | nil => exact hstart
  | cons event events ih =>
    obtain ⟨hevent, hrest⟩ := hevents
    exact ih (hstep session event hstart hevent) hrest

/-- A cache whose path has a file name, does not go up and has no slash at its end behaves as a slot
over every run from a file system in which nothing stands at its path, as long as nothing else
touches it and its draft is no link. -/
theorem behavesAsSlot_run (hname : cache.path.fileName?.isSome)
    (hslash : cache.path.spelling.getLast? ≠ some '/')
    (hup : Path.Component.up ∉ cache.path.components) {start : FileSystem}
    (hstart : cache.IsReady start) (habsent : start.standsAt cache.path = none)
    {events : List Event} (hevents : cache.Undisturbed ⟨start, none⟩ events) :
    cache.BehavesAsSlot (cache.run ⟨start, none⟩ events) := by
  obtain ⟨before, last, hsegments, hlast⟩ := splitOn_path_cases hname hslash hup
  apply Shows.behavesAsSlot
  have hempty (hshut : cache.IsShut) : cache.Shows (cache.run ⟨start, none⟩ events) :=
    hshut.shows (hevents.induction (P := fun session ↦ session.slot = none)
      (fun _ event hslot _ ↦ hshut.slot_step hslot event) rfl)
  rcases hlast with hlast | rfl
  · cases hlong : cache.path.isTooLong with
    | true => exact hempty (isShut_of_isTooLong hlong)
    | false =>
      have hlayout := layout_of_splitOn hsegments hlast hup
      have hholds : cache.Holds ⟨start, none⟩ := ⟨hstart, habsent, nofun⟩
      apply Holds.shows hsegments hlast hlong
      exact hevents.induction (fun _ _ h hevent ↦ h.step hlayout hevent) hholds
  · exact hempty (isShut_of_dot hsegments)

/-- A file system with an install root `/game`. -/
def sampleFiles : FileSystem where
  nodes := [([], ⟨.directory, ⟨10, 0⟩⟩), (["game".toList], ⟨.directory, ⟨10, 0⟩⟩),
    (["Mods".toList, "game".toList], ⟨.directory, ⟨10, 0⟩⟩)]
  working := ["game".toList]
  now := ⟨20, 0⟩

def sampleCatalog : Catalog :=
  (∅ : Catalog).insert "hediff".toList "Flu".toList

/-- A run with saves of the empty catalog and of this one at the moment at which the folder of mods
is changed, and a save that fails because a directory stands in the place of the draft. -/
def sampleEvents : List Event :=
  [.save (.ofString "/game") ∅ Catalog.wellFiled_empty, .clear, .clear,
    .change fun files ↦ { files with now := ⟨30, 0⟩ }.setContent ["Mods".toList, "game".toList]
      .directory,
    .save (.ofString "/game/") sampleCatalog (Catalog.wellFiled_empty.insert (by decide) _),
    .load (.ofString "/game"),
    .change fun files ↦ { files with now := ⟨40, 0⟩ }.setContent
      ["index.tmp".toList, "kept".toList, "game".toList] .directory,
    .save (.ofString "/other") ∅ Catalog.wellFiled_empty, .isPresent]

/-- The cache that is kept in the folder `kept` of the working directory. -/
def sampleCache : CacheFile :=
  ⟨.ofString "kept/index"⟩

theorem behavesAsSlot_run_sample :
    (sampleCache.path.fileName?.isSome = true ∧ sampleCache.path.spelling.getLast? ≠ some '/' ∧
      Path.Component.up ∉ sampleCache.path.components ∧ sampleCache.IsReady sampleFiles ∧
      sampleFiles.standsAt sampleCache.path = none ∧
      sampleCache.Undisturbed ⟨sampleFiles, none⟩ sampleEvents) ∧
    sampleCache.BehavesAsSlot (sampleCache.run ⟨sampleFiles, none⟩ sampleEvents) ∧
    (sampleCache.load (sampleCache.run ⟨sampleFiles, none⟩ sampleEvents).files
      (.ofString "/game")).value = some sampleCatalog := by
  have hname : sampleCache.path.fileName?.isSome = true := by decide
  have hslash : sampleCache.path.spelling.getLast? ≠ some '/' := by decide
  have hup : Path.Component.up ∉ sampleCache.path.components := by decide
  have hready : sampleCache.IsReady sampleFiles :=
    isReady_of_standsAt (by decide +kernel) (by decide +kernel : _ = none) nofun rfl
      ⟨by decide, by decide, Or.inl (by decide)⟩
  have habsent : sampleFiles.standsAt sampleCache.path = none := by decide +kernel
  have hevents : sampleCache.Undisturbed ⟨sampleFiles, none⟩ sampleEvents := by
    refine ⟨trivial, trivial, trivial, ⟨?_, by decide +kernel⟩, trivial, trivial,
      ⟨?_, by decide +kernel⟩, trivial, trivial, trivial⟩
    · exact isReady_of_standsAt (by decide +kernel) (by decide +kernel : _ = none) nofun
        rfl ⟨by decide, by decide, Or.inl (by decide)⟩
    · exact isReady_of_standsAt (by decide +kernel) (by decide +kernel : _ = some .directory) nofun
        rfl ⟨by decide, by decide, Or.inl (by decide)⟩
  exact ⟨⟨hname, hslash, hup, hready, habsent, hevents⟩,
    behavesAsSlot_run hname hslash hup hready habsent hevents, by decide +kernel⟩

end CacheFile

end DefCatalog
