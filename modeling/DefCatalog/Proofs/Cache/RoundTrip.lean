import DefCatalog.Proofs.Cache.Snapshot
import DefCatalog.Proofs.Text.Utf8
import DefCatalog.Proofs.Time.Timestamp

/-!
# The bytes of a cache file

Every snapshot with a version of 32 bits and an instant that has a timestamp is read back from the
bytes that it is saved as. What is read from any bytes is such a snapshot, so that saving it again
changes nothing of it, however the bytes were laid out.
-/

namespace DefCatalog.Snapshot

/-- The snapshot that the bytes of a cache file stand for. -/
def ofBytes? (bytes : Bytes) : Option Snapshot :=
  (Utf8.decode? bytes).bind read?

/-- Whether a snapshot can be kept in a file. -/
structure IsKeepable (snapshot : Snapshot) : Prop where
  version_lt : snapshot.version < versionBound
  builtAt : Timestamp.IsStampable snapshot.builtAt

variable {snapshot : Snapshot}

theorem IsKeepable.ofBytes?_encode (h : snapshot.IsKeepable) :
    ofBytes? (Utf8.encode snapshot.write) = some snapshot := by
  calc
    ofBytes? (Utf8.encode snapshot.write) = read? snapshot.write := by
      rw [ofBytes?, Utf8.decode?_encode, Option.bind_some]
    _ = (Timestamp.read? (Timestamp.write Timestamp.zulu snapshot.builtAt)).map fun builtAt ↦
          { snapshot with builtAt := builtAt } := read?_write h.version_lt
    _ = some snapshot := by
      rw [Timestamp.read?_write h.builtAt]
      rfl

theorem version?_lt {value : Option Json.Value} {version : Nat}
    (h : version? value = some version) : version < versionBound := by
  unfold version? at h
  split at h
  · cases h
    decide
  · split at h
    · split at h
      · cases h
        assumption
      · cases h
    · cases h
  · cases h

theorem isKeepable_of_ofValue? {value : Json.Value} (h : ofValue? value = some snapshot) :
    snapshot.IsKeepable := by
  unfold ofValue? at h
  split at h
  · simp only [Option.bind_eq_bind, Option.bind_eq_some_iff] at h
    obtain ⟨version, hversion, root, _, text, _, builtAt, hbuiltAt, items, _, entries, _, heq⟩ := h
    cases heq
    exact ⟨version?_lt hversion, Timestamp.isStampable_of_read? hbuiltAt⟩
  · cases h

theorem isKeepable_of_ofBytes? {bytes : Bytes} (h : ofBytes? bytes = some snapshot) :
    snapshot.IsKeepable := by
  obtain ⟨document, _, hread⟩ := Option.bind_eq_some_iff.mp h
  obtain ⟨value, _, hvalue⟩ := Option.bind_eq_some_iff.mp hread
  exact isKeepable_of_ofValue? hvalue

/-- A snapshot is read back from its bytes, to the nanosecond of its time, and saving what was read
from any bytes and reading it again changes nothing. -/
theorem ofBytes?_write :
    (∀ snapshot : Snapshot, snapshot.version < versionBound →
      Timestamp.IsStampable snapshot.builtAt →
      ofBytes? (Utf8.encode snapshot.write) = some snapshot) ∧
    (∀ (bytes : Bytes) (snapshot : Snapshot), ofBytes? bytes = some snapshot →
      ofBytes? (Utf8.encode snapshot.write) = some snapshot) := by
  constructor
  · intro snapshot hversion hbuiltAt
    exact IsKeepable.ofBytes?_encode ⟨hversion, hbuiltAt⟩
  · intro bytes snapshot hbytes
    exact (isKeepable_of_ofBytes? hbytes).ofBytes?_encode

/-- The bytes of a record without a version, with a leap second, an offset from universal time, and
characters in escapes of their own, as units and beyond the first plane. -/
def sampleBytes : Bytes :=
  Utf8.encode
    ("\x7b \"builtAt\": \"2017-1-1 01:59:60.000000001+02:00\", \"sourceRoot\": \"/mods \\\\ \\\"1\\\"\", " ++
      "\"index\": [[\"ThingDef\", [\"a\\u0001\", \"\\ud83d\\ude00\", \"😀\", \"\"]], [\"\", []]]\x7d").toList

def sample : Snapshot :=
  ⟨1, ⟨"/mods \\ \"1\"".toList⟩, ⟨1483228799, 1000000001⟩,
    [⟨"ThingDef".toList, ["a\x01".toList, "😀".toList, "😀".toList, []]⟩, ⟨[], []⟩]⟩

/-- The same record with the highest version, from the first second of the year 0. -/
def oldestSample : Snapshot :=
  { sample with
    version := 4294967295
    builtAt := ⟨-62167219200, 999999999⟩ }

theorem ofBytes?_write_sample :
    (oldestSample.version < versionBound ∧ Timestamp.IsStampable oldestSample.builtAt ∧
      ofBytes? (Utf8.encode oldestSample.write) = some oldestSample) ∧
    ofBytes? sampleBytes = some sample ∧ ofBytes? (Utf8.encode sample.write) = some sample := by
  have hversion : oldestSample.version < versionBound := by decide
  have hbuiltAt : Timestamp.IsStampable oldestSample.builtAt :=
    ⟨by decide, by decide, Or.inl (by decide)⟩
  have hbytes : ofBytes? sampleBytes = some sample := by decide +kernel
  exact ⟨⟨hversion, hbuiltAt, ofBytes?_write.1 oldestSample hversion hbuiltAt⟩, hbytes,
    ofBytes?_write.2 sampleBytes sample hbytes⟩

end DefCatalog.Snapshot
