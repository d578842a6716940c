import DefCatalog.Proofs.Catalog.WellFiled
import Mathlib.Data.List.Induction

/-!
# Filing more than once

Filing adds nothing but what is filed, and filing a name that is there already changes nothing.
Names under different keys may be filed in either order as soon as their keys are known. So filing
the entries of a catalog that was filled apart is as good as filing, one by one, what it was filled
with: nothing is lost, nothing stands twice, and the order is that of first sight.
-/

namespace DefCatalog.Catalog

variable {key name : Text} {entries : List Entry} {catalog : Catalog}
  {definitions : List Definition}

theorem namesIn_cons (entry : Entry) (entries : List Entry) :
    namesIn key (entry :: entries) =
      if entry.kind = key then entry.names else namesIn key entries := by
  unfold namesIn
  by_cases hkey : entry.kind = key
  · rw [List.find?_cons_of_pos (by simp [hkey]), if_pos hkey]
  · rw [List.find?_cons_of_neg (by simp [hkey]), if_neg hkey]

theorem mem_namesIn_insertEntry {key' name' : Text} :
    name' ∈ namesIn key' (insertEntry key name entries) ↔
      name' ∈ namesIn key' entries ∨ (key = key' ∧ name = name') := by
  induction entries with
  | nil =>
    rw [insertEntry, namesIn_cons]
    by_cases hkey : key = key'
    · simp [hkey, namesIn, eq_comm]
    · simp [hkey, namesIn]
  | cons entry entries ih =>
    rw [insertEntry, namesIn_cons]
    by_cases hkey : entry.kind = key
    · rw [if_pos hkey]
      by_cases hcontains : entry.names.contains name
      · rw [if_pos hcontains, namesIn_cons]
        have hmem : name ∈ entry.names := by simpa using hcontains
        by_cases hkey' : entry.kind = key'
        · rw [if_pos hkey']
          refine ⟨Or.inl, fun h ↦ h.elim id ?_⟩
          intro hnew
          rwa [← hnew.2]
        · rw [if_neg hkey']
          refine ⟨Or.inl, fun h ↦ h.elim id ?_⟩
          intro hnew
          exact absurd (hkey.trans hnew.1) hkey'
      · rw [if_neg hcontains, namesIn_cons]
        by_cases hkey' : entry.kind = key'
        · rw [if_pos hkey', if_pos hkey', List.mem_append, List.mem_singleton]
          simp [← hkey, hkey', eq_comm]
        · rw [if_neg hkey', if_neg hkey']
          simp [← hkey, hkey']
    · rw [if_neg hkey, namesIn_cons]
      by_cases hkey' : entry.kind = key'
      · rw [if_pos hkey', if_pos hkey']
        refine ⟨Or.inl, fun h ↦ h.elim id ?_⟩
        intro hnew
        exact absurd (hkey'.trans hnew.1.symm) hkey
      · rw [if_neg hkey', if_neg hkey', ih]

theorem insertAll_cons (catalog : Catalog) (d : Definition) (definitions : List Definition) :
    catalog.insertAll (d :: definitions) = (catalog.insert d.kind d.name).insertAll definitions :=
  rfl

theorem insertAll_append (catalog : Catalog) (definitions more : List Definition) :
    catalog.insertAll (definitions ++ more) = (catalog.insertAll definitions).insertAll more :=
  List.foldl_append

/-- The names under a key are those that were there and those that are filed under it. -/
theorem mem_names_insertAll {kind : Text} :
    name ∈ (catalog.insertAll definitions).names kind ↔
      name ∈ catalog.names kind ∨
        ∃ d ∈ definitions, Text.lower d.kind = Text.lower kind ∧ d.name = name := by
  induction definitions generalizing catalog with
  | nil => simp [insertAll]
  | cons d definitions ih =>
    rw [insertAll_cons, ih]
    unfold names insert
    rw [mem_namesIn_insertEntry]
    simp [or_assoc]

theorem insertEntry_of_mem (h : name ∈ namesIn key entries) :
    insertEntry key name entries = entries := by
  induction entries with
  | nil => cases h
  | cons entry entries ih =>
    rw [namesIn_cons] at h
    rw [insertEntry]
    by_cases hkey : entry.kind = key
    · rw [if_pos hkey] at h
      rw [if_pos hkey, if_pos (by simpa using h)]
    · rw [if_neg hkey] at h
      rw [if_neg hkey, ih h]

theorem insert_of_mem (h : name ∈ catalog.names key) : catalog.insert key name = catalog := by
  unfold insert
  rw [insertEntry_of_mem h]

theorem insertAll_of_forall_mem (h : ∀ d ∈ definitions, d.name ∈ catalog.names d.kind) :
    catalog.insertAll definitions = catalog := by
  induction definitions with
  | nil => rfl
  | cons d definitions ih =>
    rw [insertAll_cons, insert_of_mem (h d List.mem_cons_self)]
    apply ih
    intro other hother
    exact h other (List.mem_cons_of_mem d hother)

theorem mem_names_insertAll_of_mem {d : Definition} (h : d ∈ definitions) :
    d.name ∈ (catalog.insertAll definitions).names d.kind :=
  mem_names_insertAll.mpr (Or.inr ⟨d, h, rfl, rfl⟩)

/-- A name under a known key may be filed before or after a name under another key. -/
theorem insertEntry_comm {key' name' : Text} (hne : key ≠ key')
    (hkey : key ∈ entries.map Entry.kind) :
    insertEntry key' name' (insertEntry key name entries) =
      insertEntry key name (insertEntry key' name' entries) := by
  induction entries with
  | nil => cases hkey
  | cons entry entries ih =>
    by_cases hfirst : entry.kind = key
    · have hother : entry.kind ≠ key' := by
        rw [hfirst]
        exact hne
      by_cases hcontains : entry.names.contains name
      · simp only [insertEntry, if_pos hfirst, if_pos hcontains, if_neg hother]
      · simp only [insertEntry, if_pos hfirst, if_neg hcontains, if_neg hother]
    · have hrest : key ∈ entries.map Entry.kind := by
        rw [List.map_cons, List.mem_cons] at hkey
        exact hkey.resolve_left (Ne.symm hfirst)
      by_cases hother : entry.kind = key'
      · by_cases hcontains : entry.names.contains name'
        · simp only [insertEntry, if_neg hfirst, if_pos hother, if_pos hcontains]
        · simp only [insertEntry, if_neg hfirst, if_pos hother, if_neg hcontains]
      · simp only [insertEntry, if_neg hfirst, if_neg hother, ih hrest]

theorem mem_kinds_insertEntry {key' : Text} (h : key ∈ entries.map Entry.kind) :
    key ∈ (insertEntry key' name entries).map Entry.kind := by
  rw [kinds_insertEntry]
  split
  · exact h
  · exact List.mem_append_left _ h

/-- A name under a known key may be filed before or after names under other keys. -/
theorem insertAll_insert_comm (hlower : Text.lower key = key)
    (hkey : key ∈ catalog.entries.map Entry.kind)
    (hother : ∀ d ∈ definitions, Text.lower d.kind ≠ key) :
    (catalog.insert key name).insertAll definitions =
      (catalog.insertAll definitions).insert key name := by
  induction definitions generalizing catalog with
  | nil => rfl
  | cons d definitions ih =>
    have hne : key ≠ Text.lower d.kind := Ne.symm (hother d List.mem_cons_self)
    have hswap : (catalog.insert key name).insert d.kind d.name =
        (catalog.insert d.kind d.name).insert key name := by
      unfold insert
      rw [hlower, insertEntry_comm hne hkey]
    rw [insertAll_cons, hswap, insertAll_cons]
    apply ih
    · exact mem_kinds_insertEntry hkey
    · intro other hmem
      exact hother other (List.mem_cons_of_mem d hmem)

theorem definitionsOf_cons (entry : Entry) (entries : List Entry) :
    definitionsOf (entry :: entries) =
      (entry.names.map fun name ↦ ⟨entry.kind, name⟩) ++ definitionsOf entries := rfl

theorem kind_of_mem_definitionsOf {d : Definition} (h : d ∈ definitionsOf entries) :
    d.kind ∈ entries.map Entry.kind := by
  obtain ⟨entry, hentry, hmem⟩ := List.mem_flatMap.mp h
  obtain ⟨name, _, rfl⟩ := List.mem_map.mp hmem
  exact List.mem_map_of_mem hentry

theorem mem_kinds_insertAll (h : key ∈ catalog.entries.map Entry.kind) :
    key ∈ (catalog.insertAll definitions).entries.map Entry.kind := by
  induction definitions generalizing catalog with
  | nil => exact h
  | cons d definitions ih =>
    rw [insertAll_cons]
    exact ih (mem_kinds_insertEntry h)

theorem merge_insertEntry (hnodup : (entries.map Entry.kind).Nodup)
    (hentries : ∀ entry ∈ entries, WellFiledEntry entry) (hlower : Text.lower key = key) :
    catalog.merge (insertEntry key name entries) = (catalog.merge entries).insert key name := by
  induction entries generalizing catalog with
  | nil => rfl
  | cons entry entries ih =>
    obtain ⟨hhead, htail⟩ := List.nodup_cons.mp hnodup
    have hentry := hentries entry List.mem_cons_self
    have hrest : ∀ other ∈ entries, WellFiledEntry other :=
      fun other hother ↦ hentries other (List.mem_cons_of_mem entry hother)
    unfold merge at ih ⊢
    rw [insertEntry]
    by_cases hkey : entry.kind = key
    · rw [if_pos hkey]
      by_cases hcontains : entry.names.contains name
      · have hmem : (⟨key, name⟩ : Definition) ∈ definitionsOf (entry :: entries) := by
          rw [definitionsOf_cons, List.mem_append, List.mem_map]
          exact Or.inl ⟨name, by simpa using hcontains, by rw [hkey]⟩
        rw [if_pos hcontains, insert_of_mem (mem_names_insertAll_of_mem hmem)]
      · -- the key is known when the names after it are filed, since none of them is the first
        let known := catalog.insertAll (entry.names.map fun name ↦ ⟨key, name⟩)
        have hknown : key ∈ known.entries.map Entry.kind := by
          unfold known
          obtain ⟨first, others, hnames⟩ := List.exists_cons_of_ne_nil hentry.names_ne_nil
          rw [hnames, List.map_cons, insertAll_cons]
          apply mem_kinds_insertAll
          unfold insert
          rw [hlower, kinds_insertEntry]
          split
          · assumption
          · exact List.mem_append_right _ (List.mem_singleton.mpr rfl)
        have hother : ∀ d ∈ definitionsOf entries, Text.lower d.kind ≠ key := by
          intro d hd heq
          obtain ⟨other, hmem, hkind⟩ := List.mem_map.mp (kind_of_mem_definitionsOf hd)
          rw [← hkind, (hrest other hmem).lower_kind] at heq
          rw [hkey, ← heq] at hhead
          exact hhead (List.mem_map_of_mem hmem)
        rw [if_neg hcontains]
        calc
          catalog.insertAll (definitionsOf (⟨entry.kind, entry.names ++ [name]⟩ :: entries)) =
              (known.insert key name).insertAll (definitionsOf entries) := by
            rw [definitionsOf_cons, insertAll_append, List.map_append, insertAll_append,
              List.map_singleton, hkey]
            rfl
          _ = (known.insertAll (definitionsOf entries)).insert key name :=
            insertAll_insert_comm hlower hknown hother
          _ = (catalog.insertAll (definitionsOf (entry :: entries))).insert key name := by
            rw [definitionsOf_cons, insertAll_append, hkey]
    · rw [if_neg hkey, definitionsOf_cons, definitionsOf_cons, insertAll_append, insertAll_append]
      exact ih htail hrest

/-- Merging a catalog that was filled apart is filing what it was filled with. -/
theorem merge_insertAll (hlower : ∀ d ∈ definitions, Text.lower d.kind = d.kind) :
    catalog.merge (insertAll ∅ definitions).entries = catalog.insertAll definitions := by
  induction definitions using List.reverseRecOn with
  | nil => rfl
  | append_singleton definitions d ih =>
    have hfront : ∀ other ∈ definitions, Text.lower other.kind = other.kind :=
      fun other hother ↦ hlower other (List.mem_append_left _ hother)
    have hlast : Text.lower d.kind = d.kind :=
      hlower d (List.mem_append_right _ (List.mem_singleton.mpr rfl))
    have hwell : (insertAll ∅ definitions).WellFiled := wellFiled_empty.insertAll hfront
    calc
      catalog.merge (insertAll ∅ (definitions ++ [d])).entries =
          catalog.merge (insertEntry d.kind d.name (insertAll ∅ definitions).entries) := by
        rw [insertAll_append, insertAll_cons, insertAll, List.foldl_nil, insert, hlast]
      _ = (catalog.merge (insertAll ∅ definitions).entries).insert d.kind d.name :=
        merge_insertEntry hwell.nodup_kinds hwell.entry_of_mem hlast
      _ = catalog.insertAll (definitions ++ [d]) := by
        rw [ih hfront, insertAll_append]
        rfl

end DefCatalog.Catalog
