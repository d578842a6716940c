import DefCatalog.Proofs.Cache.File

/-!
# Cache files in other layouts

A cache file gives its snapshot however its document is laid out. The members may come in any order,
the version may be left out, texts, names and blanks may be spelled in any way that the grammar has,
and there may be members with other names and any values.
-/

namespace DefCatalog.Snapshot

open Json

variable {snapshot : Snapshot} {members : List (StringBody × Value)} {text : Text}

theorem ofBytes?_encode (text : Text) : ofBytes? (Utf8.encode text) = read? text := by
  rw [ofBytes?, Utf8.decode?_encode, Option.bind_some]

/-- What is loaded from a file that is read as a snapshot. -/
theorem load_eq_some_iff_of_read? {cache : CacheFile} {files : FileSystem} {root : Path}
    {catalog : Catalog} (hfile : files.readFile cache.path = .ok (Utf8.encode text))
    (hread : read? text = some snapshot) :
    (cache.load files root).value = some catalog ↔
      snapshot.staleness files root = none ∧ snapshot.toCatalog = catalog := by
  rw [CacheFile.load_eq_some_iff]
  constructor
  · rintro ⟨bytes, found, hbytes, hfound, hfresh, hcatalog⟩
    obtain rfl : Utf8.encode text = bytes := Except.ok.inj (hfile.symm.trans hbytes)
    rw [ofBytes?_encode, hread] at hfound
    cases hfound
    exact ⟨hfresh, hcatalog⟩
  · rintro ⟨hfresh, hcatalog⟩
    exact ⟨_, snapshot, hfile, (ofBytes?_encode text).trans hread, hfresh, hcatalog⟩

/-- A snapshot is read from every document that lays out its fields, as it is read from its own
document. A cache file with such a document gives the snapshot, and so the same catalog, which is
stale for the same roots. -/
theorem read?_of_isLaidOut (hversion : snapshot.version < versionBound)
    (hlayout : snapshot.IsLaidOut members) (htext : Spells (Value.object members).tokens text) :
    read? text = read? snapshot.write ∧
    (Timestamp.IsStampable snapshot.builtAt →
      read? text = some snapshot ∧
      ∀ (cache : CacheFile) (files : FileSystem),
        files.readFile cache.path = .ok (Utf8.encode text) →
          cache.read files = .ok snapshot ∧
          ∀ (root : Path) (catalog : Catalog), (cache.load files root).value = some catalog ↔
            snapshot.staleness files root = none ∧ snapshot.toCatalog = catalog) := by
  have hread : read? text = read? snapshot.write := by
    rw [read?_write hversion, ← hlayout.ofValue? hversion, read?, htext.read?]
    rfl
  refine ⟨hread, fun hbuiltAt ↦ ?_⟩
  have hsnapshot : read? text = some snapshot := by
    rw [hread, read?_write hversion, Timestamp.read?_write hbuiltAt]
    rfl
  refine ⟨hsnapshot, fun cache files hfile ↦ ⟨?_, fun root catalog ↦ ?_⟩⟩
  · exact CacheFile.read_eq_ok_iff.mpr ⟨_, hfile, (ofBytes?_encode text).trans hsnapshot⟩
  · exact load_eq_some_iff_of_read? hfile hsnapshot

/-- The fields of the sample apart from the version, from the last to the first and among others:
one with the name of the version in other letters, twice, and one with a nested value. -/
def shuffledFields : List (Text × Value) :=
  [("Version".toList, .array [.array [], .object [(ofText "version".toList, .null)]]),
    ("index".toList, .array (sample.entries.map entryValue)),
    ("builtAt".toList, .ofText (Timestamp.write Timestamp.zulu sample.builtAt)),
    ("note \x7b\"]".toList, .object [(ofText "index".toList, .array [.object []])]),
    ("sourceRoot".toList, .ofText sample.root.spelling),
    ("Version".toList, .bool true)]

/-- The fields that are no fields of a snapshot. -/
def furtherFields : List (Text × Value) :=
  shuffledFields.filter fun field ↦ field.1 ∉ fieldNames

def shuffledText : Text :=
  "\t\n".toList ++ (Json.write (.object (membersOf shuffledFields)) ++ " \r\n".toList)

/-- Files with this document in a file of the root directory. -/
def shuffledFiles : FileSystem where
  nodes := [([], ⟨.directory, ⟨0, 0⟩⟩), (["c".toList], ⟨.file (Utf8.encode shuffledText), ⟨0, 0⟩⟩)]
  working := []
  now := ⟨0, 0⟩

theorem isLaidOut_shuffled : sample.IsLaidOut (rereadMembers (membersOf shuffledFields)) := by
  let known := shuffledFields.filter fun field ↦ field.1 ∈ fieldNames
  have hreverse : known.reverse = sample.fields.tail := rfl
  have hperm : shuffledFields.Perm (sample.fields.tail ++ furtherFields) := by
    have hsplit : (known ++ furtherFields).Perm shuffledFields :=
      List.filter_append_perm _ shuffledFields
    rw [← hreverse]
    exact hsplit.symm.trans ((List.reverse_perm known).symm.append_right furtherFields)
  refine ⟨_, sample.fields.tail.map fun field ↦ (field.1, field.2.reread),
    furtherFields.map fun field ↦ (field.1, field.2.reread),
    forall₂_isMember_reread shuffledFields, ?_, Or.inr ⟨rfl, rfl⟩, ?_, ?_⟩
  · rw [← List.map_append]
    exact hperm.map _
  · intro field hfield
    obtain ⟨written, hwritten, rfl⟩ := List.mem_map.mp hfield
    exact isField_reread written (List.mem_of_mem_tail hwritten)
  · decide

theorem spells_shuffledText :
    Spells (Value.object (rereadMembers (membersOf shuffledFields))).tokens shuffledText := by
  have hstart : ∀ c ∈ "\t\n".toList, isBlank c = true := List.all_eq_true.mp rfl
  have hend : ∀ c ∈ " \r\n".toList, isBlank c = true := List.all_eq_true.mp rfl
  have hnone : ∀ token ∈ (Value.object (membersOf shuffledFields)).tokens,
      (match token with | .number _ => false | _ => true) = true := by decide
  have hnaturals : HasNaturals (Value.object (membersOf shuffledFields)).tokens := by
    intro number hnumber
    cases hnone _ hnumber
  have hwritten := (spells_write hnaturals).append (Spells.blanks hend)
  rw [List.append_nil, Value.reread] at hwritten
  exact hwritten.blanks_append hstart

theorem read?_of_isLaidOut_shuffled :
    sample.version < versionBound ∧ sample.IsLaidOut (rereadMembers (membersOf shuffledFields)) ∧
      Spells (Value.object (rereadMembers (membersOf shuffledFields))).tokens shuffledText ∧
      Timestamp.IsStampable sample.builtAt ∧ read? shuffledText = some sample ∧
      ((CacheFile.mk ⟨"c".toList⟩).load shuffledFiles sample.root).value =
        some sample.toCatalog := by
  have hversion : sample.version < versionBound := by decide
  have hbuiltAt : Timestamp.IsStampable sample.builtAt :=
    ⟨by decide, by decide, Or.inr ⟨by decide, by decide⟩⟩
  have hfile : shuffledFiles.readFile ⟨"c".toList⟩ = .ok (Utf8.encode shuffledText) := rfl
  have hfresh : sample.staleness shuffledFiles sample.root = none := by decide
  obtain ⟨hread, hload⟩ :=
    (read?_of_isLaidOut hversion isLaidOut_shuffled spells_shuffledText).2 hbuiltAt
  exact ⟨hversion, isLaidOut_shuffled, spells_shuffledText, hbuiltAt, hread,
    ((hload _ _ hfile).2 _ _).mpr ⟨hfresh, rfl⟩⟩

end DefCatalog.Snapshot
