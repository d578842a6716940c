import DefCatalog.CommandLine.Run
import DefCatalog.Proofs.Files.Writing
import DefCatalog.Proofs.Json.Record
import DefCatalog.Proofs.Text.Utf8

/-!
# The remembered install root

The settings file is a register for one path. Whatever it held before, a command that remembers a
root and succeeds leaves exactly that root in it, with each of its characters, and from then on all
such commands succeed, so that the last one counts. What holds no settings is left as it is, and a
root that is given by the user goes before all that the file may hold.
-/

namespace DefCatalog

namespace Settings

open Json FileSystem

variable {files after : FileSystem} {path : Path} {settings : Settings}

theorem hasNaturals_rootValue (root : Option Path) : HasNaturals (rootValue root).tokens := by
  cases root with
  | none =>
    intro number hmem
    simp [rootValue, Value.tokens] at hmem
  | some root => exact hasNaturals_ofText root.spelling

/-- Settings are read back from their document. -/
theorem read?_write (settings : Settings) : read? settings.write = some settings := by
  obtain ⟨root⟩ := settings
  have hnumbers : HasNaturals (Value.object (membersOf
      [("rimworldPath".toList, rootValue root)])).tokens := by
    apply hasNaturals_membersOf
    intro field hfield
    rw [List.mem_singleton.mp hfield]
    exact hasNaturals_rootValue root
  have hfields : (Value.object (membersOf
      [("rimworldPath".toList, rootValue root)])).reread.fields? fieldNames =
        some [some (rootValue root).reread] :=
    fields?_reread fieldNames (List.nodup_singleton _)
  have hdocument : Json.read? (write ⟨root⟩) = some (Value.object (membersOf
      [("rimworldPath".toList, rootValue root)])).reread :=
    Json.read?_write hnumbers
  unfold read?
  rw [hdocument]
  dsimp only [Option.bind_eq_bind, Option.bind_some]
  rw [hfields]
  cases root with
  | none => rfl
  | some root =>
    have hvalue : (Value.ofText root.spelling).reread.text?.bind
        (fun text ↦ some (⟨some ⟨text⟩⟩ : Settings)) = some ⟨some root⟩ := by
      rw [text?_reread_ofText]
      rfl
    exact hvalue

/-- Whether something stands at a path that holds no settings: a directory, bytes that are no text,
or a text that is no record of settings. -/
def HoldsNoSettings (files : FileSystem) (path : Path) : Prop :=
  files.pathExists path = true ∧
    ∀ bytes, files.readFile path = .ok bytes → (Utf8.decode? bytes).bind read? = none

theorem load_of_holdsNoSettings (h : HoldsNoSettings files path) :
    ∃ fault, load files path = .error fault := by
  obtain ⟨hexists, hnone⟩ := h
  unfold load readText
  rw [if_pos hexists]
  cases hread : files.readFile path with
  | error reason => exact ⟨_, rfl⟩
  | ok bytes =>
    have hdecode := hnone bytes hread
    dsimp only
    cases htext : Utf8.decode? bytes with
    | none => exact ⟨_, rfl⟩
    | some document =>
      rw [htext, Option.bind_some] at hdecode
      dsimp only
      rw [hdecode]
      exact ⟨_, rfl⟩

theorem load_of_hasWritten (h : files.HasWritten path (Utf8.encode settings.write)) :
    load files path = .ok settings := by
  have htext : files.readText path = .ok settings.write := by
    unfold readText
    rw [h.readFile]
    dsimp only
    rw [Utf8.decode?_encode]
  unfold load
  rw [if_pos (pathExists_of_readFile h.readFile), htext]
  dsimp only
  rw [read?_write]

theorem hasWritten_of_save (h : settings.save files path = (after, none)) :
    after.HasWritten path (Utf8.encode settings.write) := by
  unfold save at h
  split at h
  · cases h
  · rename_i last hsteps
    cases h
    obtain ⟨middle, _, hwrite⟩ := FileStep.runAll_append_eq_none hsteps
    obtain ⟨written, hwritten, hend⟩ := FileStep.runAll_cons_eq_none hwrite
    cases hend
    exact hasWritten_of_writeFile hwritten

/-- Where a file can be written, no directory is missing. -/
theorem exists_saveSteps {goal : Location}
    (hgoal : files.writeLocation maxLinks files.working path = .ok goal)
    (hshort : path.isTooLong = false) (settings : Settings) :
    ∃ directory, settings.saveSteps files path =
        directory ++ [.write path (Utf8.encode settings.write)] ∧
      FileStep.runAll files directory = (files, none) := by
  unfold saveSteps
  cases hparent : path.parent? with
  | none => exact ⟨[], rfl, rfl⟩
  | some parent =>
    dsimp only
    split
    · exact ⟨[], rfl, rfl⟩
    · rename_i hspelling
      exact ⟨_, rfl, runAll_makeDirectories_of_isDirectory hspelling
        (isDirectory_parent_of_writeLocation hgoal hshort hparent hspelling)⟩

theorem save_of_hasWritten {old : Bytes} (h : files.HasWritten path old) (settings : Settings) :
    ∃ after, settings.save files path = (after, none) := by
  obtain ⟨after, hwrite⟩ := h.writeFile (Utf8.encode settings.write)
  obtain ⟨hshort, goal, hgoal, _⟩ := h
  obtain ⟨directory, hsteps, hdirectory⟩ := exists_saveSteps hgoal hshort settings
  refine ⟨after, ?_⟩
  unfold save
  rw [hsteps, FileStep.runAll_append, hdirectory]
  simp only [FileStep.runAll, FileStep.run, hwrite]

end Settings

namespace Session

open FileSystem

variable {session : Session} {files : FileSystem} {root : Path}

/-- Whether settings that remember a root have been written to the settings file. -/
def Remembers (session : Session) (files : FileSystem) (root : Path) : Prop :=
  ∃ settings : Settings, settings.installRoot = some root ∧
    files.HasWritten session.settingsPath (Utf8.encode settings.write)

theorem Remembers.resolveRoot (h : session.Remembers files root) :
    Settings.resolveRoot files none session.settingsPath = .ok (some root) := by
  obtain ⟨settings, hroot, hwritten⟩ := h
  unfold Settings.resolveRoot
  dsimp only
  rw [Settings.load_of_hasWritten hwritten, ← hroot]

/-- A command that remembers a root, at a given time and in the files that there are then. -/
def setRootAt (session : Session) (files : FileSystem) (command : Instant × Path) :
    Output × FileSystem :=
  Session.setRoot { session with files := { files with now := command.1 } } command.2

theorem remembers_of_setRoot (hcode : (session.setRoot root).1.code = 0) :
    session.Remembers (session.setRoot root).2 root := by
  unfold setRoot at hcode ⊢
  cases hload : Settings.load session.files session.settingsPath with
  | error fault =>
    rw [hload] at hcode
    cases hcode
  | ok settings =>
    rw [hload] at hcode
    dsimp only at hcode ⊢
    obtain ⟨after, failure, hsave⟩ : ∃ after failure,
        ({ settings with installRoot := some root } : Settings).save session.files
          session.settingsPath = (after, failure) := ⟨_, _, rfl⟩
    rw [hsave] at hcode ⊢
    cases failure with
    | some error => cases hcode
    | none => exact ⟨_, rfl, Settings.hasWritten_of_save hsave⟩

theorem setRoot_succeeds {old : Path} (h : session.Remembers session.files old) (root : Path) :
    (session.setRoot root).1.code = 0 := by
  obtain ⟨settings, _, hwritten⟩ := h
  obtain ⟨after, hsave⟩ := Settings.save_of_hasWritten hwritten
    { settings with installRoot := some root }
  unfold setRoot
  rw [Settings.load_of_hasWritten hwritten]
  dsimp only
  rw [hsave]
  rfl

theorem Remembers.at_time (h : session.Remembers files root) (time : Instant) :
    session.Remembers { files with now := time } root := by
  obtain ⟨settings, hroot, hshort, goal, hgoal, hfile⟩ := h
  have hkeeps : Keeps { files with now := time } files := fun _ _ hcontent _ ↦ hcontent
  exact ⟨settings, hroot, hshort, goal, hkeeps.writeLocation (isFree_of_file hfile) hgoal, hfile⟩

/-- The files after commands that remember roots, each at its time. -/
def setRoots (session : Session) (files : FileSystem) (commands : List (Instant × Path)) :
    FileSystem :=
  commands.foldl (fun files command ↦ (session.setRootAt files command).2) files

/-- Whether all commands succeed, one after the other. -/
def AllSucceed (session : Session) : FileSystem → List (Instant × Path) → Prop
  | _, [] => True
  | files, command :: commands =>
    (session.setRootAt files command).1.code = 0 ∧
      AllSucceed session (session.setRootAt files command).2 commands

/-- Where a root is remembered, all commands succeed and the last one counts. -/
theorem Remembers.setRoots {old : Instant × Path} (h : session.Remembers files old.2)
    (commands : List (Instant × Path)) :
    session.AllSucceed files commands ∧ session.Remembers (session.setRoots files commands)
      ((old :: commands).getLast (List.cons_ne_nil _ _)).2 := by
  induction commands generalizing files old with
  | nil => exact ⟨trivial, h⟩
  | cons command commands ih =>
    let now : Session := { session with files := { files with now := command.1 } }
    have hnow : now.Remembers now.files old.2 := h.at_time command.1
    have hcode : (session.setRootAt files command).1.code = 0 := setRoot_succeeds hnow command.2
    have hnext : session.Remembers (session.setRootAt files command).2 command.2 :=
      remembers_of_setRoot hcode
    obtain ⟨hall, hlast⟩ := ih hnext
    rw [List.getLast_cons_cons]
    exact ⟨⟨hcode, hall⟩, hlast⟩

theorem setRoot_of_load_error {fault : SettingsFault} {root : Path}
    (h : Settings.load session.files session.settingsPath = .error fault) :
    session.setRoot root = (.failed (fault.failure session.wording) [], session.files) := by
  rw [setRoot, h]

/-- What makes the settings file of a session a register for a root. -/
structure IsRegister (session : Session) : Prop where
  /-- After a command that succeeds, its root is remembered until another one is, whatever came
  before, and all later commands succeed. -/
  last_wins : ∀ files earlier command later,
    (session.setRootAt (session.setRoots files earlier) command).1.code = 0 →
      session.AllSucceed (session.setRoots files (earlier ++ [command])) later ∧
        Settings.resolveRoot (session.setRoots files (earlier ++ command :: later)) none
            session.settingsPath =
          .ok (some ((command :: later).getLast (List.cons_ne_nil _ _)).2)
  /-- Where something stands that holds no settings, a command fails and changes nothing. -/
  refuses : ∀ files root, Settings.HoldsNoSettings files session.settingsPath →
    (Session.setRoot { session with files := files } root).1.code = 1 ∧
      (Session.setRoot { session with files := files } root).2 = files
  /-- A root that is given goes before what is remembered, and the file is not even read. -/
  given_wins : ∀ files root,
    Settings.resolveRoot files (some root) session.settingsPath = .ok (some root)

/-- The settings file is a register for the install root in which the last writer wins, and what
cannot be read as settings is never overwritten. -/
theorem isRegister_settings (session : Session) : session.IsRegister where
  last_wins := by
    intro files earlier command later hcode
    have hfirst : session.setRoots files (earlier ++ [command]) =
        (session.setRootAt (session.setRoots files earlier) command).2 := by
      unfold setRoots
      rw [List.foldl_append]
      rfl
    have hall : session.setRoots files (earlier ++ command :: later) =
        session.setRoots (session.setRoots files (earlier ++ [command])) later := by
      unfold setRoots
      rw [← List.foldl_append, List.append_assoc]
      rfl
    have hremembers : session.Remembers (session.setRoots files (earlier ++ [command])) command.2 :=
      hfirst ▸ remembers_of_setRoot hcode
    obtain ⟨hsucceed, hlast⟩ := hremembers.setRoots later
    exact ⟨hsucceed, hall ▸ hlast.resolveRoot⟩
  refuses := by
    intro files root hnone
    obtain ⟨fault, hload⟩ := Settings.load_of_holdsNoSettings hnone
    let now : Session := { session with files := files }
    have hfailed : now.setRoot root = (.failed (fault.failure session.wording) [], files) :=
      setRoot_of_load_error hload
    rw [hfailed]
    exact ⟨rfl, rfl⟩
  given_wins _ _ := rfl

/-- A session on the settings file `c/s.json`. -/
def settingsSession : Session where
  environment := ⟨[]⟩
  invocation := ⟨none, none, some (Path.ofString "c/s.json"), .sync, .loose, false, none⟩
  wording := .standard
  files := .empty [] ⟨0, 0⟩

/-- Files with a given text in the settings file. -/
def settingsFiles (text : String) : FileSystem where
  nodes :=
    [([], ⟨.directory, ⟨0, 0⟩⟩), (["c".toList], ⟨.directory, ⟨0, 0⟩⟩),
      (["s.json".toList, "c".toList], ⟨.file (Utf8.encode text.toList), ⟨0, 0⟩⟩)]
  working := []
  now := ⟨0, 0⟩

/-- A root whose characters are escaped in a document. -/
def quotedRoot : Path :=
  ⟨['/', '"', '\\', '\n']⟩

theorem isRegister_settingsSession :
    (settingsSession.setRootAt (settingsFiles "[\"/old\"]") (⟨1, 0⟩, quotedRoot)).1.code = 0 ∧
      Settings.resolveRoot (settingsSession.setRoots (settingsFiles "[\"/old\"]")
        [(⟨1, 0⟩, quotedRoot)]) none settingsSession.settingsPath = .ok (some quotedRoot) ∧
      Settings.HoldsNoSettings (settingsFiles "no settings") settingsSession.settingsPath ∧
      (Session.setRoot { settingsSession with files := settingsFiles "no settings" }
        quotedRoot).2 = settingsFiles "no settings" := by
  have hregister := isRegister_settings settingsSession
  have hcode :
      (settingsSession.setRootAt (settingsFiles "[\"/old\"]") (⟨1, 0⟩, quotedRoot)).1.code = 0 := by
    decide +kernel
  have hnone :
      Settings.HoldsNoSettings (settingsFiles "no settings") settingsSession.settingsPath := by
    refine ⟨by decide +kernel, fun bytes hread ↦ ?_⟩
    have hbytes : (settingsFiles "no settings").readFile settingsSession.settingsPath =
        .ok (Utf8.encode "no settings".toList) := by decide +kernel
    rw [hbytes] at hread
    cases hread
    decide +kernel
  exact ⟨hcode, (hregister.last_wins _ [] _ [] hcode).2, hnone, (hregister.refuses _ _ hnone).2⟩

end Session

end DefCatalog
