import DefCatalog.Catalog.Register
import DefCatalog.Proofs.Catalog.Filing

/-!
# The catalog that a register keeps

The index of a register finds what looking through its catalog would find. So filing in a register
is filing in its catalog, and what it tells of new names is how much the catalog grows.
-/

namespace DefCatalog

namespace Catalog

variable {key name : Text} {front entries : List Entry}

theorem namesIn_append (h : key ∉ front.map Entry.kind) :
    namesIn key (front ++ entries) = namesIn key entries := by
  induction front with
  | nil => rfl
  | cons first front ih =>
    rw [List.map_cons, List.mem_cons, not_or] at h
    rw [List.cons_append, namesIn_cons, if_neg (Ne.symm h.1), ih h.2]

theorem namesIn_eq_nil (h : key ∉ entries.map Entry.kind) : namesIn key entries = [] := by
  rw [← List.append_nil entries, namesIn_append h]
  rfl

theorem namesIn_of_mem {entry : Entry} (hnodup : (entries.map Entry.kind).Nodup)
    (hmem : entry ∈ entries) (hkey : entry.kind = key) : namesIn key entries = entry.names := by
  induction entries with
  | nil => cases hmem
  | cons first entries ih =>
    obtain ⟨hhead, htail⟩ := List.nodup_cons.mp hnodup
    rw [namesIn_cons]
    rcases List.mem_cons.mp hmem with rfl | hrest
    · rw [if_pos hkey]
    · rw [if_neg, ih htail hrest]
      rintro hfirst
      rw [hfirst, ← hkey] at hhead
      exact hhead (List.mem_map_of_mem hrest)

theorem size_insert (catalog : Catalog) (kind name : Text) :
    (catalog.insert kind name).size =
      catalog.size + if name ∈ catalog.names kind then 0 else 1 := by
  unfold size insert names
  dsimp only
  generalize Text.lower kind = key
  induction catalog.entries with
  | nil => rfl
  | cons entry entries ih =>
    rw [insertEntry, namesIn_cons]
    by_cases hkey : entry.kind = key
    · rw [if_pos hkey, if_pos hkey]
      by_cases hname : name ∈ entry.names
      · rw [if_pos (by simpa using hname), if_pos hname]
        rfl
      · rw [if_neg (by simpa using hname), if_neg hname, definitionsOf_cons, definitionsOf_cons]
        simp only [List.length_append, List.length_map, List.length_singleton]
        omega
    · rw [if_neg hkey, if_neg hkey, definitionsOf_cons, definitionsOf_cons, List.length_append,
        List.length_append, ih]
      omega

end Catalog

namespace Register

variable {register : Register} {key kind name : Text} {place : Nat}

theorem kind_of_places (h : register.places[key]? = some place) (hplace : place < register.shelves.size) :
    register.shelves[place].kind = key := by
  have hkind := (register.places_iff key place).mp h
  rw [Array.getElem?_eq_getElem hplace] at hkind
  exact Option.some.inj hkind

theorem mem_kinds_iff :
    key ∈ register.entries.map Entry.kind ↔ ∃ place, register.places[key]? = some place := by
  simp only [register.places_iff]
  have hkinds : register.entries.map Entry.kind = register.shelves.toList.map Shelf.kind := by
    unfold entries
    rw [List.map_map]
    rfl
  rw [hkinds, List.mem_iff_getElem?]
  simp only [List.getElem?_map, Array.getElem?_toList]

/-- The entry that the table finds, with the entries before it, which have other keys. -/
theorem exists_front (h : register.places[key]? = some place)
    (hplace : place < register.shelves.size) :
    ∃ front back, register.entries = front ++ register.shelves[place].entry :: back ∧
      front.length = place ∧ key ∉ front.map Entry.kind := by
  have hlength : place < register.entries.length := by simpa [entries] using hplace
  have hentry : register.entries[place] = register.shelves[place].entry := by simp [entries]
  refine ⟨register.entries.take place, register.entries.drop (place + 1), ?_, ?_, ?_⟩
  · rw [← hentry, ← List.drop_eq_getElem_cons hlength, List.take_append_drop]
  · rw [List.length_take, Nat.min_eq_left (Nat.le_of_lt hlength)]
  · intro hmem
    -- an entry with this key is found by the table, so it stands at the place itself
    rw [List.map_take] at hmem
    obtain ⟨other, hother, hkind⟩ := List.mem_take_iff_getElem.mp hmem
    have hfound : register.places[key]? = some other := by
      rw [register.places_iff]
      simp only [entries, List.map_map, List.getElem_map, Array.getElem_toList] at hkind
      have hsize : other < register.shelves.size := by
        simp [entries] at hother
        omega
      rw [Array.getElem?_eq_getElem hsize]
      exact congrArg some hkind
    rw [h] at hfound
    have heq := Option.some.inj hfound
    omega

theorem entries_addShelf (hnew : register.places[key]? = none) :
    (register.addShelf key hnew).entries = register.entries ++ [⟨key, []⟩] := by
  simp [entries, addShelf, Shelf.empty, Shelf.entry]

theorem entries_pushName (hplace : place < register.shelves.size) :
    (register.pushName place hplace name).entries =
      register.entries.set place ⟨register.shelves[place].kind,
        register.shelves[place].names.toList ++ [name]⟩ := by
  simp [entries, pushName, List.map_set, Shelf.push, Shelf.entry]

/-- Filing a name on the shelf of its key is filing it among the entries. -/
theorem fileAt_eq (h : register.places[key]? = some place) (hplace : place < register.shelves.size)
    (name : Text) :
    (register.fileAt place hplace name).1.entries = Catalog.insertEntry key name register.entries ∧
      ((register.fileAt place hplace name).2 = true ↔
        name ∉ Catalog.namesIn key register.entries) := by
  obtain ⟨front, back, hentries, hlength, hfresh⟩ := exists_front h hplace
  have hkind : register.shelves[place].entry.kind = key := kind_of_places h hplace
  have hnames : Catalog.namesIn key register.entries = register.shelves[place].entry.names := by
    rw [hentries, Catalog.namesIn_append hfresh, Catalog.namesIn_cons, if_pos hkind]
  have hseen : name ∈ register.shelves[place].seen ↔
      name ∈ register.shelves[place].entry.names := by
    rw [register.shelves[place].mem_seen]
    exact Array.mem_toList_iff.symm
  rw [hnames, ← hseen]
  unfold fileAt
  by_cases hname : name ∈ register.shelves[place].seen
  · rw [if_pos hname]
    refine ⟨?_, by simp [hname]⟩
    rw [Catalog.insertEntry_of_mem]
    rwa [hnames, ← hseen]
  · rw [if_neg hname]
    refine ⟨?_, by simp [hname]⟩
    have hcontains : ¬ register.shelves[place].entry.names.contains name = true := by
      rwa [List.contains_iff_mem, ← hseen]
    let filed : Entry := ⟨register.shelves[place].kind,
      register.shelves[place].names.toList ++ [name]⟩
    calc
      (register.pushName place hplace name).entries = register.entries.set place filed :=
        entries_pushName hplace
      _ = front ++ filed :: back := by
        rw [hentries, List.set_append_right _ _ (Nat.le_of_eq hlength), hlength, Nat.sub_self,
          List.set_cons_zero]
      _ = Catalog.insertEntry key name (front ++ register.shelves[place].entry :: back) := by
        rw [Catalog.insertEntry_append hfresh, Catalog.insertEntry, if_pos hkind,
          if_neg hcontains]
        rfl
      _ = Catalog.insertEntry key name register.entries := by rw [hentries]

theorem insertEntry_concat_empty (h : key ∉ register.entries.map Entry.kind) :
    Catalog.insertEntry key name (register.entries ++ [⟨key, []⟩]) =
      Catalog.insertEntry key name register.entries := by
  have hnil := Catalog.insertEntry_append h name []
  rw [List.append_nil] at hnil
  rw [hnil, Catalog.insertEntry_append h]
  simp [Catalog.insertEntry]

theorem insert_eq (register : Register) (kind name : Text) :
    (register.insert kind name).1.toCatalog = register.toCatalog.insert kind name ∧
      ((register.insert kind name).2 = true ↔ name ∉ register.toCatalog.names kind) := by
  have hcatalog (changed : Register)
      (h : changed.entries = Catalog.insertEntry (Text.lower kind) name register.entries) :
      changed.toCatalog = register.toCatalog.insert kind name := by
    unfold toCatalog Catalog.insert
    rw [h]
  unfold insert
  dsimp only
  split
  · rename_i place hplace
    obtain ⟨hentries, hnew⟩ := fileAt_eq hplace (lt_size_of_places hplace) name
    exact ⟨hcatalog _ hentries, hnew⟩
  · rename_i hnone
    have hfresh : Text.lower kind ∉ register.entries.map Entry.kind := by
      rw [mem_kinds_iff, hnone]
      simp
    have hshelf : (register.addShelf (Text.lower kind) hnone).places[Text.lower kind]? =
        some register.shelves.size := by
      simp [addShelf]
    obtain ⟨hentries, hnew⟩ := fileAt_eq hshelf (lt_size_of_places hshelf) name
    rw [entries_addShelf] at hentries hnew
    rw [insertEntry_concat_empty hfresh] at hentries
    rw [Catalog.namesIn_append hfresh] at hnew
    refine ⟨hcatalog _ hentries, hnew.trans ?_⟩
    change _ ↔ name ∉ Catalog.namesIn _ register.entries
    rw [Catalog.namesIn_eq_nil hfresh, Catalog.namesIn_cons, if_pos rfl]

@[simp]
theorem toCatalog_insert (register : Register) (kind name : Text) :
    (register.insert kind name).1.toCatalog = register.toCatalog.insert kind name :=
  (insert_eq register kind name).1

@[simp]
theorem toCatalog_insertAll (register : Register) (definitions : List Definition) :
    (register.insertAll definitions).1.toCatalog = register.toCatalog.insertAll definitions := by
  induction definitions generalizing register with
  | nil => rfl
  | cons d definitions ih =>
    rw [Catalog.insertAll_cons, ← toCatalog_insert, ← ih]
    rfl

@[simp]
theorem toCatalog_merge (register : Register) (entries : List Entry) :
    (register.merge entries).1.toCatalog = register.toCatalog.merge entries :=
  toCatalog_insertAll register _

@[simp]
theorem toCatalog_ofEntries (entries : List Entry) :
    (ofEntries entries).toCatalog = Catalog.ofEntries entries :=
  toCatalog_merge ∅ entries

theorem names_eq (register : Register) (kind : Text) :
    register.names kind = register.toCatalog.names kind := by
  change _ = Catalog.namesIn (Text.lower kind) register.entries
  unfold names
  split
  · rename_i place hplace
    have hlt := lt_size_of_places hplace
    obtain ⟨front, back, hentries, _, hfresh⟩ := exists_front hplace hlt
    have hkind : register.shelves[place].entry.kind = Text.lower kind := kind_of_places hplace hlt
    rw [hentries, Catalog.namesIn_append hfresh, Catalog.namesIn_cons, if_pos hkind]
    rfl
  · rename_i hnone
    rw [Catalog.namesIn_eq_nil]
    rw [mem_kinds_iff, hnone]
    simp

theorem hasKind_iff :
    register.hasKind kind = true ↔ Text.lower kind ∈ register.entries.map Entry.kind := by
  unfold hasKind
  rw [mem_kinds_iff, Std.HashMap.contains_eq_isSome_getElem?, Option.isSome_iff_exists]

theorem size_eq (register : Register) : register.size = register.toCatalog.size := by
  have htotal (total : Nat) (shelves : List Shelf) :
      shelves.foldl (fun total shelf ↦ total + shelf.names.size) total =
        total + (Catalog.definitionsOf (shelves.map Shelf.entry)).length := by
    induction shelves generalizing total with
    | nil => rfl
    | cons shelf shelves ih =>
      rw [List.foldl_cons, ih]
      simp [Catalog.definitionsOf, Shelf.entry, Nat.add_assoc]
  unfold size toCatalog Catalog.size entries
  rw [← Array.foldl_toList, htotal, Nat.zero_add]

theorem isEmpty_iff : register.isEmpty = true ↔ register.entries = [] := by
  simp [isEmpty, entries]

theorem size_insert (register : Register) (kind name : Text) :
    (register.insert kind name).1.size =
      register.size + if (register.insert kind name).2 then 1 else 0 := by
  rw [size_eq, toCatalog_insert, Catalog.size_insert, ← size_eq]
  by_cases hname : name ∈ register.toCatalog.names kind
  · rw [if_pos hname, if_neg]
    rw [(insert_eq register kind name).2]
    exact fun hnew ↦ hnew hname
  · rw [if_neg hname, if_pos ((insert_eq register kind name).2.mpr hname)]

theorem size_insertAll (register : Register) (definitions : List Definition) :
    (register.insertAll definitions).1.size =
      register.size + (register.insertAll definitions).2 := by
  induction definitions generalizing register with
  | nil => rfl
  | cons d definitions ih =>
    have hfirst := size_insert register d.kind d.name
    have hrest := ih (register.insert d.kind d.name).1
    simp only [insertAll]
    rw [hrest, hfirst]
    split <;> omega

end Register

end DefCatalog
