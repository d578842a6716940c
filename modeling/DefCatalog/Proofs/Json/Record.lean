import DefCatalog.Proofs.Json.RoundTrip
import Mathlib.Data.List.Forall2
import Mathlib.Data.List.Perm.Basic

/-!
# Reading records

The fields of a record are those members of an object that have the names of the fields. Their order
does not matter, and neither do members with other names. The fields of a printed record are read
back.
-/

namespace DefCatalog.Json

variable {known others fields : List (Text × Value)} {members : List (StringBody × Value)}

/-- Whether a field is the member of an object under the text of its name. -/
def IsMember (member : StringBody × Value) (field : Text × Value) : Prop :=
  textOf? member.1 = some field.1 ∧ member.2 = field.2

theorem mapM_eq_some_iff {α β : Type} {read : α → Option β} {items : List α} {results : List β} :
    items.mapM read = some results ↔
      List.Forall₂ (fun item result ↦ read item = some result) items results := by
  constructor
  · intro h
    induction items generalizing results with
    | nil =>
      cases h
      exact .nil
    | cons item items ih =>
      rw [List.mapM_cons, Option.bind_eq_bind, Option.bind_eq_some_iff] at h
      obtain ⟨first, hfirst, hmore⟩ := h
      obtain ⟨rest, hrest, heq⟩ := Option.bind_eq_some_iff.mp hmore
      cases heq
      exact .cons hfirst (ih hrest)
  · intro h
    induction h with
    | nil => rfl
    | cons hfirst _ ih => rw [List.mapM_cons, hfirst, ih]; rfl

theorem mapM_name (h : List.Forall₂ IsMember members fields) :
    members.mapM (fun (key, value) ↦ (textOf? key).map fun key ↦ (key, value)) = some fields := by
  refine mapM_eq_some_iff.mpr (h.imp ?_)
  rintro ⟨key, value⟩ ⟨name, _⟩ ⟨hname, rfl⟩
  exact congrArg (Option.map fun key ↦ (key, value)) hname

theorem lookup_eq_head?_filter (name : Text) (fields : List (Text × Value)) :
    List.lookup name fields = (fields.filter (·.1 = name)).head?.map Prod.snd := by
  induction fields with
  | nil => rfl
  | cons field fields ih =>
    by_cases hname : field.1 = name
    · rw [List.filter_cons_of_pos (by simpa using hname), List.lookup_cons, hname]
      simp
    · rw [List.filter_cons_of_neg (by simpa using hname), List.lookup_cons,
        beq_false_of_ne (Ne.symm hname)]
      exact ih

theorem length_filter_le_one (hnodup : (known.map Prod.fst).Nodup) (name : Text) :
    (known.filter (·.1 = name)).length ≤ 1 := by
  have hcount := List.nodup_iff_count.mp hnodup name
  rw [List.count, List.countP_map, List.countP_eq_length_filter] at hcount
  have hsame : (fun field : Text × Value ↦ decide (field.1 = name)) = (· == name) ∘ Prod.fst := by
    funext field
    rw [Bool.eq_iff_iff, decide_eq_true_iff, Function.comp_apply, beq_iff_eq]
  rwa [hsame]

/-- A known name finds the same field in any order, and among fields with other names. -/
theorem filter_eq_of_perm {name : Text}
    (hperm : fields.Perm (known ++ others)) (hnodup : (known.map Prod.fst).Nodup)
    (hothers : ∀ field ∈ others, field.1 ≠ name) :
    fields.filter (·.1 = name) = known.filter (·.1 = name) := by
  have hnone : others.filter (·.1 = name) = [] := by
    rw [List.filter_eq_nil_iff]
    intro field hmem
    simpa using hothers field hmem
  have hfilter : (fields.filter (·.1 = name)).Perm (known.filter (·.1 = name)) := by
    have hall := hperm.filter (·.1 = name)
    rwa [List.filter_append, hnone, List.append_nil] at hall
  have hlength := length_filter_le_one hnodup name
  generalize known.filter (·.1 = name) = same at hfilter hlength ⊢
  match same with
  | [] => exact hfilter.eq_nil
  | [_] => exact List.perm_singleton.mp hfilter
  | _ :: _ :: _ => simp at hlength

/-- The fields of a record are found in any order and among members with other names. -/
theorem fields?_of_perm {names : List Text} (hmembers : List.Forall₂ IsMember members fields)
    (hperm : fields.Perm (known ++ others)) (hnodup : (known.map Prod.fst).Nodup)
    (hothers : ∀ field ∈ others, field.1 ∉ names) :
    (Value.object members).fields? names =
      some (names.map fun name ↦ List.lookup name known) := by
  have hfilter : ∀ name ∈ names,
      fields.filter (·.1 = name) = known.filter (·.1 = name) := by
    intro name hname
    apply filter_eq_of_perm hperm hnodup
    rintro field hmem rfl
    exact hothers field hmem hname
  have honce : names.all (fun name ↦ (fields.filter (·.1 = name)).length ≤ 1) = true := by
    rw [List.all_eq_true]
    intro name hname
    rw [hfilter name hname]
    exact decide_eq_true (length_filter_le_one hnodup name)
  have hlookup : names.map (fun name ↦ List.lookup name fields) =
      names.map fun name ↦ List.lookup name known := by
    apply List.map_congr_left
    intro name hname
    rw [lookup_eq_head?_filter, hfilter name hname, lookup_eq_head?_filter]
  rw [Value.fields?, mapM_name hmembers]
  change (if _ then _ else _) = _
  rw [if_pos honce, hlookup]

theorem lookup_of_nodup (hnodup : (fields.map Prod.fst).Nodup)
    {name : Text} {value : Value} (h : (name, value) ∈ fields) :
    List.lookup name fields = some value := by
  induction fields with
  | nil => cases h
  | cons field fields ih =>
    obtain ⟨first, other⟩ := field
    rw [List.map_cons, List.nodup_cons] at hnodup
    rcases List.mem_cons.mp h with hfirst | hmem
    · cases hfirst
      exact List.lookup_cons_self
    · have hne : name ≠ first := by
        rintro rfl
        exact hnodup.1 (List.mem_map.mpr ⟨_, hmem, rfl⟩)
      rw [List.lookup_cons, beq_false_of_ne hne]
      exact ih hnodup.2 hmem

/-- The members of a record with the given fields. -/
def membersOf (fields : List (Text × Value)) : List (StringBody × Value) :=
  fields.map fun (name, value) ↦ (ofText name, value)

theorem rereadMembers_membersOf (fields : List (Text × Value)) :
    rereadMembers (membersOf fields) =
      fields.map fun field ↦ ((ofText field.1).map Piece.reread, field.2.reread) := by
  induction fields with
  | nil => rfl
  | cons field fields ih =>
    unfold membersOf at ih ⊢
    rw [List.map_cons, rereadMembers, ih, List.map_cons]

theorem hasNaturals_membersOf (h : ∀ field ∈ fields, HasNaturals field.2.tokens) :
    HasNaturals (Value.object (membersOf fields)).tokens := by
  apply hasNaturals_object
  intro member hmember
  obtain ⟨field, hfield, rfl⟩ := List.mem_map.mp hmember
  exact h field hfield

theorem forall₂_isMember_reread (fields : List (Text × Value)) :
    List.Forall₂ IsMember (rereadMembers (membersOf fields))
      (fields.map fun field ↦ (field.1, field.2.reread)) := by
  rw [rereadMembers_membersOf, List.forall₂_map_left_iff, List.forall₂_map_right_iff,
    List.forall₂_same]
  exact fun field _ ↦ ⟨textOf?_reread field.1, rfl⟩

theorem lookup_map_reread (name : Text) (fields : List (Text × Value)) :
    List.lookup name (fields.map fun field ↦ (field.1, field.2.reread)) =
      (List.lookup name fields).map Value.reread := by
  induction fields with
  | nil => rfl
  | cons field fields ih =>
    rw [List.map_cons, List.lookup_cons, List.lookup_cons]
    split
    · rfl
    · exact ih

theorem fields?_reread (names : List Text) (hnodup : (fields.map Prod.fst).Nodup) :
    (Value.object (membersOf fields)).reread.fields? names =
      some (names.map fun name ↦ (List.lookup name fields).map Value.reread) := by
  have hnames : (fields.map fun field ↦ (field.1, field.2.reread)).map Prod.fst =
      fields.map Prod.fst := by
    rw [List.map_map]
    rfl
  have hothers : ∀ field ∈ ([] : List (Text × Value)), field.1 ∉ names :=
    fun _ hmem ↦ nomatch hmem
  rw [Value.reread, fields?_of_perm (forall₂_isMember_reread fields) (by rw [List.append_nil])
    (hnames ▸ hnodup) hothers]
  simp only [lookup_map_reread]

end DefCatalog.Json
