import DefCatalog.Proofs.Catalog.Register
import DefCatalog.Proofs.Text.LowerCase

/-!
# What a register remembers of its history

The history of a register is the list of all definitions that were filed since it was last started
over, their kinds in lower case. A register shows its history without the repetitions: kinds in the
order of their first definition, and under each the names in the order in which they first came with
it. So what a register answers is known from its history, however the definitions were filed.
-/

namespace DefCatalog

/-- A definition with its kind in lower case. -/
def Definition.lowered (d : Definition) : Definition :=
  ⟨Text.lower d.kind, d.name⟩

@[simp]
theorem Definition.kind_lowered (d : Definition) : d.lowered.kind = Text.lower d.kind := rfl

@[simp]
theorem Definition.name_lowered (d : Definition) : d.lowered.name = d.name := rfl

namespace Catalog

variable {catalog : Catalog} {history definitions : List Definition} {key name : Text}

section EraseDups

variable {α : Type} [BEq α] [LawfulBEq α] (xs : List α)

theorem eraseDups_concat (x : α) :
    (xs ++ [x]).eraseDups = if x ∈ xs then xs.eraseDups else xs.eraseDups ++ [x] := by
  rw [List.eraseDups_append]
  by_cases hx : x ∈ xs
  · simp [List.removeAll, hx]
  · simp [List.removeAll, hx, List.eraseDups_cons]

theorem nodup_eraseDups : xs.eraseDups.Nodup := by
  induction xs using List.reverseRecOn with
  | nil => exact List.nodup_nil
  | append_singleton xs x ih =>
    rw [eraseDups_concat]
    split
    · exact ih
    · rename_i hx
      rw [← List.concat_eq_append]
      exact ih.concat (mt List.mem_eraseDups.mp hx)

end EraseDups

/-- The names that come with a kind, in the order in which they first do. -/
def namesOf (history : List Definition) (kind : Text) : List Text :=
  ((history.filter (·.kind = kind)).map Definition.name).eraseDups

/-- The kinds of some definitions in the order in which they first occur, each with its names in the
order in which they first come with it. -/
def firstSeen (history : List Definition) : List Entry :=
  (history.map Definition.kind).eraseDups.map fun kind ↦ ⟨kind, namesOf history kind⟩

theorem firstSeen_eq_nil : firstSeen history = [] ↔ history = [] := by
  cases history with
  | nil => exact iff_of_true rfl rfl
  | cons d history => simp [firstSeen, List.eraseDups_cons]

theorem kinds_firstSeen (history : List Definition) :
    (firstSeen history).map Entry.kind = (history.map Definition.kind).eraseDups := by
  unfold firstSeen
  rw [List.map_map]
  exact List.map_id _

theorem mem_namesOf : name ∈ namesOf history key ↔ ⟨key, name⟩ ∈ history := by
  unfold namesOf
  rw [List.mem_eraseDups, List.mem_map]
  constructor
  · rintro ⟨d, hd, rfl⟩
    obtain ⟨hmem, hkind⟩ := List.mem_filter.mp hd
    rw [← of_decide_eq_true hkind]
    exact hmem
  · intro h
    exact ⟨⟨key, name⟩, List.mem_filter.mpr ⟨h, by simp⟩, rfl⟩

theorem namesOf_concat (d : Definition) :
    namesOf (history ++ [d]) key =
      if d.kind = key then
        if d.name ∈ namesOf history key then namesOf history key
        else namesOf history key ++ [d.name]
      else namesOf history key := by
  unfold namesOf
  rw [List.filter_append]
  by_cases hkey : d.kind = key
  · rw [if_pos hkey, List.filter_cons_of_pos (by simp [hkey]), List.filter_nil, List.map_append,
      List.map_singleton, eraseDups_concat]
    simp only [List.mem_eraseDups]
  · rw [if_neg hkey, List.filter_cons_of_neg (by simp [hkey]), List.filter_nil, List.append_nil]

/-- Filing a name changes the entry of its key only. -/
theorem insertEntry_map {keys : List Text} {before after : Text → List Text} (hnodup : keys.Nodup)
    (hkey : key ∈ keys) (hother : ∀ other, key ≠ other → after other = before other)
    (hsame : after key = if name ∈ before key then before key else before key ++ [name]) :
    insertEntry key name (keys.map fun kind ↦ ⟨kind, before kind⟩) =
      keys.map fun kind ↦ ⟨kind, after kind⟩ := by
  have hleave (others : List Text) (hfresh : key ∉ others) :
      (others.map fun kind ↦ (⟨kind, before kind⟩ : Entry)) =
        others.map fun kind ↦ ⟨kind, after kind⟩ := by
    apply List.map_congr_left
    intro other hmem
    rw [hother other fun heq ↦ hfresh (heq ▸ hmem)]
  induction keys with
  | nil => cases hkey
  | cons first keys ih =>
    obtain ⟨hhead, htail⟩ := List.nodup_cons.mp hnodup
    rw [List.map_cons, List.map_cons, insertEntry]
    by_cases hfirst : first = key
    · subst hfirst
      rw [if_pos rfl, hsame, ← hleave keys hhead]
      simp only [List.contains_iff_mem]
      split <;> rfl
    · have hrest : key ∈ keys := (List.mem_cons.mp hkey).resolve_left (Ne.symm hfirst)
      rw [if_neg hfirst, ih htail hrest, hother first (Ne.symm hfirst)]

theorem namesOf_concat_of_ne (history : List Definition) {d : Definition} {other : Text}
    (hne : d.kind ≠ other) : namesOf (history ++ [d]) other = namesOf history other := by
  rw [namesOf_concat, if_neg hne]

theorem firstSeen_concat_of_mem {d : Definition} (hknown : d.kind ∈ history.map Definition.kind) :
    firstSeen (history ++ [d]) = insertEntry d.kind d.name (firstSeen history) := by
  have hkinds : ((history ++ [d]).map Definition.kind).eraseDups =
      (history.map Definition.kind).eraseDups := by
    rw [List.map_append, List.map_singleton, eraseDups_concat, if_pos hknown]
  unfold firstSeen
  rw [hkinds]
  symm
  apply insertEntry_map (nodup_eraseDups _) (List.mem_eraseDups.mpr hknown)
  · exact fun other hne ↦ namesOf_concat_of_ne history hne
  · rw [namesOf_concat, if_pos rfl]

theorem firstSeen_concat_of_not_mem {d : Definition} (hnew : d.kind ∉ history.map Definition.kind) :
    firstSeen (history ++ [d]) = insertEntry d.kind d.name (firstSeen history) := by
  have hkinds : ((history ++ [d]).map Definition.kind).eraseDups =
      (history.map Definition.kind).eraseDups ++ [d.kind] := by
    rw [List.map_append, List.map_singleton, eraseDups_concat, if_neg hnew]
  have hfresh : d.kind ∉ (firstSeen history).map Entry.kind := by
    rwa [kinds_firstSeen, List.mem_eraseDups]
  have hnone : namesOf history d.kind = [] := by
    rw [List.eq_nil_iff_forall_not_mem]
    intro name hname
    have hmem : (⟨d.kind, name⟩ : Definition) ∈ history := mem_namesOf.mp hname
    exact hnew (List.mem_map.mpr ⟨_, hmem, rfl⟩)
  have hlast : namesOf (history ++ [d]) d.kind = [d.name] := by
    simp [namesOf_concat, hnone]
  have hfront : ((history.map Definition.kind).eraseDups.map fun kind ↦
      (⟨kind, namesOf (history ++ [d]) kind⟩ : Entry)) = firstSeen history := by
    apply List.map_congr_left
    intro other hmem
    rw [namesOf_concat_of_ne history fun heq ↦ hnew (heq ▸ List.mem_eraseDups.mp hmem)]
  have hinsert := insertEntry_append hfresh d.name []
  rw [List.append_nil] at hinsert
  calc
    firstSeen (history ++ [d]) =
        ((history.map Definition.kind).eraseDups.map fun kind ↦
          (⟨kind, namesOf (history ++ [d]) kind⟩ : Entry)) ++
            [⟨d.kind, namesOf (history ++ [d]) d.kind⟩] := by
      rw [firstSeen, hkinds, List.map_append, List.map_singleton]
    _ = firstSeen history ++ [⟨d.kind, [d.name]⟩] := by rw [hfront, hlast]
    _ = insertEntry d.kind d.name (firstSeen history) := hinsert.symm

theorem firstSeen_concat (history : List Definition) (d : Definition) :
    firstSeen (history ++ [d]) = insertEntry d.kind d.name (firstSeen history) := by
  by_cases hknown : d.kind ∈ history.map Definition.kind
  · exact firstSeen_concat_of_mem hknown
  · exact firstSeen_concat_of_not_mem hknown

theorem insertAll_lowered (catalog : Catalog) (definitions : List Definition) :
    catalog.insertAll (definitions.map Definition.lowered) = catalog.insertAll definitions := by
  unfold insertAll
  rw [List.foldl_map]
  simp [insert]

/-- The catalog that is filled with a history has the entries of the history. -/
theorem entries_insertAll_empty (h : ∀ d ∈ history, Text.lower d.kind = d.kind) :
    (insertAll ∅ history).entries = firstSeen history := by
  induction history using List.reverseRecOn with
  | nil => rfl
  | append_singleton history d ih =>
    have hlast : Text.lower d.kind = d.kind :=
      h d (List.mem_append_right _ (List.mem_singleton.mpr rfl))
    rw [firstSeen_concat, ← ih fun other hother ↦ h other (List.mem_append_left _ hother),
      insertAll_append, insertAll_cons]
    simp [insertAll, insert, hlast]

theorem mem_names_history (h : ∀ d ∈ history, Text.lower d.kind = d.kind) (kind : Text) :
    name ∈ (insertAll ∅ history).names kind ↔ ⟨Text.lower kind, name⟩ ∈ history := by
  rw [mem_names_insertAll]
  constructor
  · rintro (hold | ⟨d, hd, hkind, rfl⟩)
    · cases hold
    · rw [← hkind, h d hd]
      exact hd
  · intro hmem
    exact Or.inr ⟨_, hmem, Text.lower_lower kind, rfl⟩

theorem size_insertAll_empty (h : ∀ d ∈ history, Text.lower d.kind = d.kind) :
    (insertAll ∅ history).size = history.eraseDups.length := by
  induction history using List.reverseRecOn with
  | nil => rfl
  | append_singleton history d ih =>
    have hfront : ∀ other ∈ history, Text.lower other.kind = other.kind :=
      fun other hother ↦ h other (List.mem_append_left _ hother)
    have hlast : Text.lower d.kind = d.kind :=
      h d (List.mem_append_right _ (List.mem_singleton.mpr rfl))
    have hmem : d.name ∈ (insertAll ∅ history).names d.kind ↔ _ := mem_names_history hfront d.kind
    rw [hlast] at hmem
    rw [insertAll_append, insertAll_cons, eraseDups_concat]
    change ((insertAll ∅ history).insert d.kind d.name).size = _
    rw [size_insert, ih hfront]
    simp only [hmem]
    split
    · rfl
    · rw [List.length_append, List.length_singleton]

end Catalog

namespace Register

/-- A way to change a register. -/
inductive Change where
  | insert (kind name : Text)
  | insertAll (definitions : List Definition)
  | merge (entries : List Entry)
  | ofEntries (entries : List Entry)
  | clear

/-- The register after a change. The last two ways start it over. -/
def apply (register : Register) : Change → Register
  | .insert kind name => (register.insert kind name).1
  | .insertAll definitions => (register.insertAll definitions).1
  | .merge entries => (register.merge entries).1
  | .ofEntries entries => ofEntries entries
  | .clear => ∅

/-- The register after some changes, one after the other. -/
def run (changes : List Change) : Register :=
  changes.foldl apply ∅

namespace Change

/-- The history after a change. -/
def record (history : List Definition) : Change → List Definition
  | .insert kind name => history ++ [Definition.lowered ⟨kind, name⟩]
  | .insertAll definitions => history ++ definitions.map Definition.lowered
  | .merge entries => history ++ (Catalog.definitionsOf entries).map Definition.lowered
  | .ofEntries entries => (Catalog.definitionsOf entries).map Definition.lowered
  | .clear => []

/-- All definitions that were filed since the register was last started over. -/
def history (changes : List Change) : List Definition :=
  changes.foldl record []

end Change

/-- Whether a register keeps the catalog that is filled with a history. -/
structure FilledWith (register : Register) (history : List Definition) : Prop where
  toCatalog_eq : register.toCatalog = Catalog.insertAll ∅ history
  lower_kind : ∀ d ∈ history, Text.lower d.kind = d.kind

variable {register : Register} {history : List Definition}

theorem filledWith_empty : FilledWith ∅ [] where
  toCatalog_eq := rfl
  lower_kind _ hmem := nomatch hmem

theorem FilledWith.insertAll (h : register.FilledWith history) (definitions : List Definition) :
    (register.insertAll definitions).1.FilledWith
      (history ++ definitions.map Definition.lowered) where
  toCatalog_eq := by
    rw [toCatalog_insertAll, h.toCatalog_eq, Catalog.insertAll_append, Catalog.insertAll_lowered]
  lower_kind := by
    intro d hmem
    rcases List.mem_append.mp hmem with hold | hnew
    · exact h.lower_kind d hold
    · obtain ⟨given, _, rfl⟩ := List.mem_map.mp hnew
      exact Text.lower_lower given.kind

theorem FilledWith.apply (h : register.FilledWith history) (change : Change) :
    (register.apply change).FilledWith (Change.record history change) := by
  cases change with
  | insert kind name => exact h.insertAll [⟨kind, name⟩]
  | insertAll definitions => exact h.insertAll definitions
  | merge entries => exact h.insertAll _
  | ofEntries entries => exact filledWith_empty.insertAll _
  | clear => exact filledWith_empty

theorem filledWith_history (changes : List Change) :
    (run changes).FilledWith (Change.history changes) := by
  induction changes using List.reverseRecOn with
  | nil => exact filledWith_empty
  | append_singleton changes change ih =>
    unfold run Change.history
    rw [List.foldl_append, List.foldl_append]
    exact ih.apply change

/-- What a register with a given history shows and answers. -/
structure Shows (register : Register) (history : List Definition) : Prop where
  entries_eq : register.entries = Catalog.firstSeen history
  nodup_kinds : (register.entries.map Entry.kind).Nodup
  names_ne_nil : ∀ entry ∈ register.entries, entry.names ≠ []
  nodup_names : ∀ entry ∈ register.entries, entry.names.Nodup
  names_eq : ∀ kind, ∀ entry ∈ register.entries, entry.kind = Text.lower kind →
    register.names kind = entry.names
  hasKind_iff : ∀ kind, register.hasKind kind = true ↔
    ∃ entry ∈ register.entries, entry.kind = Text.lower kind
  names_eq_nil : ∀ kind, register.hasKind kind = false → register.names kind = []
  size_eq : register.size = history.eraseDups.length
  isEmpty_iff : register.isEmpty = true ↔ history = []
  insert_new : ∀ kind name, (register.insert kind name).2 = true ↔
    ⟨Text.lower kind, name⟩ ∉ history
  insertAll_growth : ∀ definitions, (register.insertAll definitions).1.size =
    register.size + (register.insertAll definitions).2
  merge_growth : ∀ entries, (register.merge entries).1.size =
    register.size + (register.merge entries).2

theorem FilledWith.wellFiled (h : register.FilledWith history) : register.toCatalog.WellFiled := by
  rw [h.toCatalog_eq]
  exact Catalog.wellFiled_empty.insertAll h.lower_kind

theorem FilledWith.entries_eq (h : register.FilledWith history) :
    register.entries = Catalog.firstSeen history := by
  rw [← Catalog.entries_insertAll_empty h.lower_kind, ← h.toCatalog_eq]
  rfl

theorem FilledWith.shows (h : register.FilledWith history) : register.Shows history := by
  have hwell := h.wellFiled
  have hkind (kind : Text) : register.hasKind kind = true ↔
      Text.lower kind ∈ register.entries.map Entry.kind := Register.hasKind_iff
  constructor
  case entries_eq => exact h.entries_eq
  case nodup_kinds => exact hwell.nodup_kinds
  case names_ne_nil => exact fun entry hmem ↦ (hwell.entry_of_mem entry hmem).names_ne_nil
  case nodup_names => exact fun entry hmem ↦ (hwell.entry_of_mem entry hmem).nodup_names
  case names_eq =>
    intro kind entry hmem hkey
    rw [Register.names_eq]
    exact Catalog.namesIn_of_mem hwell.nodup_kinds hmem hkey
  case hasKind_iff =>
    intro kind
    rw [hkind, List.mem_map]
  case names_eq_nil =>
    intro kind hnone
    rw [Register.names_eq]
    apply Catalog.namesIn_eq_nil
    intro hmem
    rw [(hkind kind).mpr hmem] at hnone
    cases hnone
  case size_eq =>
    rw [Register.size_eq, h.toCatalog_eq, Catalog.size_insertAll_empty h.lower_kind]
  case isEmpty_iff => rw [Register.isEmpty_iff, h.entries_eq, Catalog.firstSeen_eq_nil]
  case insert_new =>
    intro kind name
    rw [(insert_eq register kind name).2, h.toCatalog_eq, Catalog.mem_names_history h.lower_kind]
  case insertAll_growth => exact size_insertAll register
  case merge_growth => exact fun entries ↦ size_insertAll register _

/-- Whatever is done to a register, it shows the first sight of each definition that was filed since
it was last started over. -/
theorem shows_history (changes : List Change) : (run changes).Shows (Change.history changes) :=
  (filledWith_history changes).shows

end Register

end DefCatalog
