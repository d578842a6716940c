import DefCatalog.Catalog.Basic
import DefCatalog.Markup.Extract
import Mathlib.Data.List.Nodup

/-!
# Well-filed catalogs

A catalog that was filled name by name has distinct keys in lower case, and distinct names under
each. Filing its entries once more, one name after the other, gives the catalog back.
-/

namespace DefCatalog.Catalog

variable {key name : Text} {entries : List Entry} {catalog : Catalog}

/-- Whether an entry may stand in a catalog. -/
structure WellFiledEntry (entry : Entry) : Prop where
  lower_kind : Text.lower entry.kind = entry.kind
  names_ne_nil : entry.names ≠ []
  nodup_names : entry.names.Nodup

/-- Whether the entries are such as filing name by name gives. -/
structure WellFiled (catalog : Catalog) : Prop where
  nodup_kinds : (catalog.entries.map Entry.kind).Nodup
  entry_of_mem : ∀ entry ∈ catalog.entries, WellFiledEntry entry

theorem wellFiled_empty : WellFiled ∅ where
  nodup_kinds := List.nodup_nil
  entry_of_mem _ hmem := nomatch hmem

/-- Filing a name leaves the keys as they are or puts a new one at the end. -/
theorem kinds_insertEntry (key name : Text) (entries : List Entry) :
    (insertEntry key name entries).map Entry.kind =
      if key ∈ entries.map Entry.kind then entries.map Entry.kind
      else entries.map Entry.kind ++ [key] := by
  induction entries with
  | nil => rfl
  | cons entry entries ih =>
    unfold insertEntry
    by_cases hkey : entry.kind = key
    · have hmem : key ∈ (entry :: entries).map Entry.kind := by
        rw [List.map_cons, hkey]
        exact List.mem_cons_self
      rw [if_pos hkey, if_pos hmem]
      split <;> rfl
    · have hmem : key ∈ (entry :: entries).map Entry.kind ↔ key ∈ entries.map Entry.kind := by
        rw [List.map_cons, List.mem_cons, or_iff_right (Ne.symm hkey)]
      rw [if_neg hkey, List.map_cons, ih]
      simp only [hmem]
      split <;> rfl

theorem mem_insertEntry {entry : Entry} (h : entry ∈ insertEntry key name entries) :
    entry ∈ entries ∨ entry = ⟨key, [name]⟩ ∨
      ∃ old ∈ entries, name ∉ old.names ∧ entry = ⟨old.kind, old.names ++ [name]⟩ := by
  induction entries with
  | nil => exact Or.inr (Or.inl (List.mem_singleton.mp h))
  | cons first entries ih =>
    unfold insertEntry at h
    split at h
    · split at h
      · exact Or.inl h
      · rename_i hname
        rcases List.mem_cons.mp h with rfl | hmem
        · refine Or.inr (Or.inr ⟨first, List.mem_cons_self, ?_, rfl⟩)
          simpa using hname
        · exact Or.inl (List.mem_cons_of_mem _ hmem)
    · rcases List.mem_cons.mp h with rfl | hmem
      · exact Or.inl List.mem_cons_self
      · rcases ih hmem with hold | hnew | ⟨old, hold, hmore⟩
        · exact Or.inl (List.mem_cons_of_mem _ hold)
        · exact Or.inr (Or.inl hnew)
        · exact Or.inr (Or.inr ⟨old, List.mem_cons_of_mem _ hold, hmore⟩)

theorem WellFiled.insert (h : catalog.WellFiled) (hkey : Text.lower key = key) (name : Text) :
    (catalog.insert key name).WellFiled := by
  constructor
  · unfold Catalog.insert
    rw [hkey, kinds_insertEntry]
    split
    · exact h.nodup_kinds
    · rename_i hfresh
      rw [← List.concat_eq_append]
      exact h.nodup_kinds.concat hfresh
  · intro entry hmem
    unfold Catalog.insert at hmem
    rw [hkey] at hmem
    rcases mem_insertEntry hmem with hold | rfl | ⟨old, hold, hname, rfl⟩
    · exact h.entry_of_mem entry hold
    · exact ⟨hkey, List.cons_ne_nil _ _, List.nodup_singleton name⟩
    · have hentry := h.entry_of_mem old hold
      refine ⟨hentry.lower_kind, by simp, ?_⟩
      rw [← List.concat_eq_append]
      exact hentry.nodup_names.concat hname

theorem WellFiled.insertAll {definitions : List Definition} (h : catalog.WellFiled)
    (hlower : ∀ d ∈ definitions, Text.lower d.kind = d.kind) :
    (catalog.insertAll definitions).WellFiled := by
  induction definitions generalizing catalog with
  | nil => exact h
  | cons d definitions ih =>
    exact ih (h.insert (hlower d List.mem_cons_self) d.name)
      fun other hother ↦ hlower other (List.mem_cons_of_mem _ hother)

theorem WellFiled.merge (h : catalog.WellFiled)
    (hlower : ∀ entry ∈ entries, Text.lower entry.kind = entry.kind) :
    (catalog.merge entries).WellFiled := by
  apply h.insertAll
  intro d hd
  obtain ⟨entry, hentry, hmem⟩ := List.mem_flatMap.mp hd
  obtain ⟨name, _, rfl⟩ := List.mem_map.mp hmem
  exact hlower entry hentry

theorem insertEntry_append {front : List Entry} (h : key ∉ front.map Entry.kind)
    (name : Text) (entries : List Entry) :
    insertEntry key name (front ++ entries) = front ++ insertEntry key name entries := by
  induction front with
  | nil => rfl
  | cons first front ih =>
    rw [List.map_cons, List.mem_cons, not_or] at h
    calc
      insertEntry key name (first :: front ++ entries) =
          first :: insertEntry key name (front ++ entries) := by
        rw [List.cons_append, insertEntry, if_neg (Ne.symm h.1)]
      _ = first :: front ++ insertEntry key name entries := by rw [ih h.2, List.cons_append]

/-- Names that are new to the last entry are put at its end. -/
theorem insertAll_last {front : List Entry} {names : List Text} (hlower : Text.lower key = key)
    (hfresh : key ∉ front.map Entry.kind) (more : List Text) (hnodup : (names ++ more).Nodup) :
    insertAll ⟨front ++ [⟨key, names⟩]⟩ (more.map fun name ↦ ⟨key, name⟩) =
      ⟨front ++ [⟨key, names ++ more⟩]⟩ := by
  induction more generalizing names with
  | nil => rw [List.append_nil]; rfl
  | cons name more ih =>
    have hname : name ∉ names := fun hmem ↦
      (List.nodup_append.mp hnodup).2.2 name hmem name List.mem_cons_self rfl
    have hinsert : (⟨front ++ [⟨key, names⟩]⟩ : Catalog).insert key name =
        ⟨front ++ [⟨key, names ++ [name]⟩]⟩ := by
      unfold insert
      rw [hlower, insertEntry_append hfresh]
      simp [insertEntry, hname]
    calc
      insertAll ⟨front ++ [⟨key, names⟩]⟩ ((name :: more).map fun name ↦ ⟨key, name⟩) =
          insertAll ⟨front ++ [⟨key, names ++ [name]⟩]⟩ (more.map fun name ↦ ⟨key, name⟩) := by
        rw [← hinsert]
        rfl
      _ = ⟨front ++ [⟨key, names ++ [name] ++ more⟩]⟩ :=
        ih (by rwa [List.append_assoc, List.singleton_append])
      _ = ⟨front ++ [⟨key, names ++ name :: more⟩]⟩ := by
        rw [List.append_assoc, List.singleton_append]

theorem insertAll_entry {front : List Entry} {entry : Entry} (h : WellFiledEntry entry)
    (hfresh : entry.kind ∉ front.map Entry.kind) :
    insertAll ⟨front⟩ (entry.names.map fun name ↦ ⟨entry.kind, name⟩) = ⟨front ++ [entry]⟩ := by
  obtain ⟨kind, names⟩ := entry
  obtain ⟨name, more, rfl⟩ := List.exists_cons_of_ne_nil h.names_ne_nil
  have hinsert : (⟨front⟩ : Catalog).insert kind name = ⟨front ++ [⟨kind, [name]⟩]⟩ := by
    unfold insert
    have happend := insertEntry_append hfresh name []
    rw [List.append_nil] at happend
    rw [h.lower_kind, happend]
    rfl
  calc
    insertAll ⟨front⟩ ((name :: more).map fun name ↦ ⟨kind, name⟩) =
        insertAll ⟨front ++ [⟨kind, [name]⟩]⟩ (more.map fun name ↦ ⟨kind, name⟩) := by
      rw [← hinsert]
      rfl
    _ = ⟨front ++ [⟨kind, [name] ++ more⟩]⟩ :=
      insertAll_last h.lower_kind hfresh more h.nodup_names

/-- Filing the entries of a well-filed catalog gives the catalog back. -/
theorem ofEntries_entries (h : catalog.WellFiled) : ofEntries catalog.entries = catalog := by
  have hfrom (front rest : List Entry) (hkinds : ((front ++ rest).map Entry.kind).Nodup)
      (hrest : ∀ entry ∈ rest, WellFiledEntry entry) :
      insertAll ⟨front⟩ (definitionsOf rest) = ⟨front ++ rest⟩ := by
    induction rest generalizing front with
    | nil => rw [List.append_nil]; rfl
    | cons entry rest ih =>
      have hfresh : entry.kind ∉ front.map Entry.kind := by
        intro hmem
        rw [List.map_append, List.nodup_append] at hkinds
        exact hkinds.2.2 entry.kind hmem entry.kind List.mem_cons_self rfl
      calc
        insertAll ⟨front⟩ (definitionsOf (entry :: rest)) =
            insertAll (insertAll ⟨front⟩ (entry.names.map fun name ↦ ⟨entry.kind, name⟩))
              (definitionsOf rest) := by
          unfold insertAll definitionsOf
          rw [List.flatMap_cons, List.foldl_append]
        _ = insertAll ⟨front ++ [entry]⟩ (definitionsOf rest) := by
          rw [insertAll_entry (hrest entry List.mem_cons_self) hfresh]
        _ = ⟨front ++ [entry] ++ rest⟩ := by
          apply ih
          · rwa [List.append_assoc, List.singleton_append]
          · exact fun other hother ↦ hrest other (List.mem_cons_of_mem _ hother)
        _ = ⟨front ++ entry :: rest⟩ := by rw [List.append_assoc, List.singleton_append]
  exact hfrom [] catalog.entries h.nodup_kinds h.entry_of_mem

end DefCatalog.Catalog
