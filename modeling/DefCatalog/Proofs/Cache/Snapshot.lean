import DefCatalog.Cache.Snapshot
import DefCatalog.Proofs.Json.Record

/-!
# Reading a snapshot back

A snapshot is read from every object that has its fields, whatever their order, the spelling of
their texts and the other members of the object. What is written for a snapshot is such an object,
so that every entry comes back in its place. Only the time of building depends on more than this:
it comes back as the reader of timestamps gives it.
-/

namespace DefCatalog.Snapshot

open Json

variable {snapshot : Snapshot} {members : List (StringBody × Value)}

/-- Whether a value is a string with the given text, in whatever way its characters are written. -/
def IsText (value : Value) (text : Text) : Prop :=
  value.text? = some text

/-- Whether a value is the pair of the key and the names of an entry. -/
def IsEntry (value : Value) (entry : Entry) : Prop :=
  ∃ kind names, value = .array [kind, .array names] ∧ IsText kind entry.kind ∧
    List.Forall₂ IsText names entry.names

theorem isText_reread (text : Text) : IsText (Value.ofText text).reread text :=
  text?_reread_ofText text

theorem isEntry_reread (entry : Entry) : IsEntry (entryValue entry).reread entry := by
  refine ⟨_, _, rfl, isText_reread entry.kind, ?_⟩
  rw [rereadItems_eq_map, List.map_map, List.forall₂_map_left_iff, List.forall₂_same]
  exact fun name _ ↦ isText_reread name

theorem entry?_of_isEntry {value : Value} {entry : Entry} (h : IsEntry value entry) :
    entry? value = some entry := by
  obtain ⟨kind, names, rfl, hkind, hnames⟩ := h
  have hread : names.mapM Value.text? = some entry.names := mapM_eq_some_iff.mpr hnames
  unfold IsText at hkind
  simp only [hkind, entry?, Value.items?, hread, Option.bind_eq_bind, Option.bind_some,
    Option.pure_def]

theorem hasNaturals_entryValue (entry : Entry) : HasNaturals (entryValue entry).tokens := by
  apply hasNaturals_array
  intro item hitem
  rcases List.mem_cons.mp hitem with rfl | hnames
  · exact hasNaturals_ofText entry.kind
  · rw [List.mem_singleton.mp hnames]
    apply hasNaturals_array
    intro name hname
    obtain ⟨text, _, rfl⟩ := List.mem_map.mp hname
    exact hasNaturals_ofText text

/-- Whether a value stands for the field of a snapshot with the given name. -/
inductive IsField (snapshot : Snapshot) : Text → Value → Prop where
  | version : IsField snapshot "version".toList (.number (.ofNat snapshot.version))
  | root {value : Value} (h : IsText value snapshot.root.spelling) :
    IsField snapshot "sourceRoot".toList value
  | builtAt {value : Value} (h : IsText value (Timestamp.write Timestamp.zulu snapshot.builtAt)) :
    IsField snapshot "builtAt".toList value
  | index {items : List Value} (h : List.Forall₂ IsEntry items snapshot.entries) :
    IsField snapshot "index".toList (.array items)

/-- Whether some names are those of the fields of a snapshot. The version may be left out if it is
the one of a record that does not name one. -/
def AreNames (snapshot : Snapshot) (names : List Text) : Prop :=
  names = fieldNames ∨
    snapshot.version = defaultVersion ∧ names = fieldNames.erase "version".toList

/-- Whether the members of an object are the fields of a snapshot and any members with other names,
in any order. -/
def IsLaidOut (snapshot : Snapshot) (members : List (StringBody × Value)) : Prop :=
  ∃ fields known others, List.Forall₂ IsMember members fields ∧ fields.Perm (known ++ others) ∧
    AreNames snapshot (known.map Prod.fst) ∧ (∀ field ∈ known, IsField snapshot field.1 field.2) ∧
    ∀ field ∈ others, field.1 ∉ fieldNames

namespace IsField

variable {name : Text} {value : Value}

theorem eq_version (h : IsField snapshot name value) (hname : name = "version".toList) :
    value = .number (.ofNat snapshot.version) := by
  cases h with
  | version => rfl
  | root _ | builtAt _ | index _ => exact absurd hname (by decide)

theorem isText_root (h : IsField snapshot name value) (hname : name = "sourceRoot".toList) :
    IsText value snapshot.root.spelling := by
  cases h with
  | root hroot => exact hroot
  | version | builtAt _ | index _ => exact absurd hname (by decide)

theorem isText_builtAt (h : IsField snapshot name value) (hname : name = "builtAt".toList) :
    IsText value (Timestamp.write Timestamp.zulu snapshot.builtAt) := by
  cases h with
  | builtAt hbuiltAt => exact hbuiltAt
  | version | root _ | index _ => exact absurd hname (by decide)

theorem exists_items (h : IsField snapshot name value) (hname : name = "index".toList) :
    ∃ items, value = .array items ∧ List.Forall₂ IsEntry items snapshot.entries := by
  cases h with
  | index hindex => exact ⟨_, rfl, hindex⟩
  | version | root _ | builtAt _ => exact absurd hname (by decide)

end IsField

theorem AreNames.nodup {names : List Text} (h : AreNames snapshot names) : names.Nodup := by
  rcases h with rfl | ⟨_, rfl⟩ <;> decide

theorem AreNames.mem {name : Text} {names : List Text} (h : AreNames snapshot names)
    (hname : name ∈ fieldNames.erase "version".toList) : name ∈ names := by
  rcases h with rfl | ⟨_, rfl⟩
  · exact List.mem_of_mem_erase hname
  · exact hname

theorem AreNames.version_eq {names : List Text} (h : AreNames snapshot names)
    (hversion : "version".toList ∉ names) : snapshot.version = defaultVersion := by
  rcases h with rfl | ⟨heq, _⟩
  · exact absurd (by decide) hversion
  · exact heq

theorem version?_ofNat {version : Nat} (h : version < versionBound) :
    version? (some (.number (.ofNat version))) = some version := by
  have hvalue : (Number.ofNat version).toNat? = some version := by
    simp [Number.toNat?, Number.ofNat, Decimal.value_digits]
  rw [version?, hvalue]
  exact if_pos h

/-- The fields of a snapshot are found in every layout. -/
theorem IsLaidOut.fields? (h : snapshot.IsLaidOut members)
    (hversion : snapshot.version < versionBound) :
    ∃ version root builtAt items,
      (Value.object members).fields? fieldNames =
        some [version, some root, some builtAt, some (.array items)] ∧
      version? version = some snapshot.version ∧ IsText root snapshot.root.spelling ∧
      IsText builtAt (Timestamp.write Timestamp.zulu snapshot.builtAt) ∧
      List.Forall₂ IsEntry items snapshot.entries := by
  obtain ⟨fields, known, others, hmembers, hperm, hnames, hknown, hothers⟩ := h
  have hfound : ∀ name ∈ known.map Prod.fst, ∃ value,
      List.lookup name known = some value ∧ IsField snapshot name value := by
    intro name hname
    obtain ⟨field, hfield, rfl⟩ := List.mem_map.mp hname
    exact ⟨field.2, lookup_of_nodup hnames.nodup hfield, hknown field hfield⟩
  obtain ⟨root, hrootLookup, hroot⟩ := hfound "sourceRoot".toList (hnames.mem (by decide))
  obtain ⟨builtAt, hbuiltAtLookup, hbuiltAt⟩ := hfound "builtAt".toList (hnames.mem (by decide))
  obtain ⟨index, hindexLookup, hindex⟩ := hfound "index".toList (hnames.mem (by decide))
  obtain ⟨items, rfl, hitems⟩ := hindex.exists_items rfl
  refine ⟨List.lookup "version".toList known, root, builtAt, items, ?_, ?_, hroot.isText_root rfl,
    hbuiltAt.isText_builtAt rfl, hitems⟩
  · rw [fields?_of_perm hmembers hperm hnames.nodup hothers]
    simp only [fieldNames, List.map_cons, List.map_nil, hrootLookup, hbuiltAtLookup, hindexLookup]
  · by_cases hnamed : "version".toList ∈ known.map Prod.fst
    · obtain ⟨version, hlookup, hfield⟩ := hfound _ hnamed
      rw [hlookup, hfield.eq_version rfl, version?_ofNat hversion]
    · have hnone : List.lookup "version".toList known = none := by
        rw [List.lookup_eq_none_iff]
        rintro field hfield
        rw [bne_iff_ne]
        exact fun hname ↦ hnamed (hname ▸ List.mem_map_of_mem hfield)
      rw [hnone, hnames.version_eq hnamed, version?]

/-- Every layout stands for the snapshot, apart from the time, which is read by itself. -/
theorem IsLaidOut.ofValue? (h : snapshot.IsLaidOut members)
    (hversion : snapshot.version < versionBound) :
    ofValue? (.object members) =
      (Timestamp.read? (Timestamp.write Timestamp.zulu snapshot.builtAt)).map fun builtAt ↦
        { snapshot with builtAt := builtAt } := by
  obtain ⟨version, root, builtAt, items, hfields, hread, hroot, hbuiltAt, hitems⟩ :=
    h.fields? hversion
  have hentries : items.mapM entry? = some snapshot.entries :=
    mapM_eq_some_iff.mpr (hitems.imp fun _ _ hentry ↦ entry?_of_isEntry hentry)
  unfold IsText at hroot hbuiltAt
  rw [Snapshot.ofValue?, hfields]
  simp only [hread, hroot, hbuiltAt, Value.items?, hentries, Option.bind_eq_bind, Option.bind_some,
    Option.pure_def]
  cases Timestamp.read? (Timestamp.write Timestamp.zulu snapshot.builtAt) <;> rfl

/-- The fields of a snapshot as they are written. -/
def fields (snapshot : Snapshot) : List (Text × Value) :=
  [("version".toList, .number (.ofNat snapshot.version)),
    ("sourceRoot".toList, .ofText snapshot.root.spelling),
    ("builtAt".toList, .ofText (Timestamp.write Timestamp.zulu snapshot.builtAt)),
    ("index".toList, .array (snapshot.entries.map entryValue))]

theorem isField_reread : ∀ field ∈ snapshot.fields, IsField snapshot field.1 field.2.reread := by
  rintro field (_ | ⟨_, _ | ⟨_, _ | ⟨_, _ | ⟨_, hnone⟩⟩⟩⟩)
  · exact .version
  · exact .root (isText_reread _)
  · exact .builtAt (isText_reread _)
  · refine .index ?_
    rw [rereadItems_eq_map, List.map_map, List.forall₂_map_left_iff, List.forall₂_same]
    exact fun entry _ ↦ isEntry_reread entry
  · cases hnone

theorem hasNaturals_toValue (snapshot : Snapshot) : HasNaturals snapshot.toValue.tokens := by
  change HasNaturals (Value.object (membersOf snapshot.fields)).tokens
  apply hasNaturals_membersOf
  rintro field (_ | ⟨_, _ | ⟨_, _ | ⟨_, _ | ⟨_, hnone⟩⟩⟩⟩)
  · intro number hmem
    obtain rfl : number = .ofNat snapshot.version := by simpa [Value.tokens] using hmem
    exact ⟨_, rfl⟩
  · exact hasNaturals_ofText _
  · exact hasNaturals_ofText _
  · apply hasNaturals_array
    intro item hitem
    obtain ⟨entry, _, rfl⟩ := List.mem_map.mp hitem
    exact hasNaturals_entryValue entry
  · cases hnone

theorem isLaidOut_written (snapshot : Snapshot) :
    snapshot.IsLaidOut (rereadMembers (membersOf snapshot.fields)) := by
  refine ⟨_, snapshot.fields.map fun field ↦ (field.1, field.2.reread), [],
    forall₂_isMember_reread snapshot.fields, by rw [List.append_nil], Or.inl rfl, ?_,
    fun _ hnone ↦ nomatch hnone⟩
  intro field hfield
  obtain ⟨written, hwritten, rfl⟩ := List.mem_map.mp hfield
  exact isField_reread written hwritten

/-- A snapshot is read back, apart from the time, which is read by itself. -/
theorem read?_write (hversion : snapshot.version < versionBound) :
    read? snapshot.write =
      (Timestamp.read? (Timestamp.write Timestamp.zulu snapshot.builtAt)).map fun builtAt ↦
        { snapshot with builtAt := builtAt } := by
  rw [read?, write, Json.read?_write (hasNaturals_toValue snapshot)]
  exact (isLaidOut_written snapshot).ofValue? hversion

end DefCatalog.Snapshot
