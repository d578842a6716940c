import DefCatalog.Proofs.Catalog.History
import Mathlib.Data.List.Perm.Basic

/-!
# Unions of registers

The union of two registers is the first with the entries of the second merged into it. Its history
is the one history after the other, though the entries of the second register no longer tell in
which order names under different kinds came. Hence unions obey the laws of ordered unions, up to
the equality that minds the order of kinds and names.
-/

namespace DefCatalog

namespace Catalog

variable {catalog : Catalog} {history more : List Definition} {d : Definition}

theorem mem_definitionsOf_firstSeen : d ∈ definitionsOf (firstSeen history) ↔ d ∈ history := by
  unfold definitionsOf firstSeen
  simp only [List.mem_flatMap, List.mem_map, List.mem_eraseDups]
  constructor
  · rintro ⟨_, ⟨kind, _, rfl⟩, name, hname, rfl⟩
    exact mem_namesOf.mp hname
  · intro h
    exact ⟨_, ⟨d.kind, ⟨d, h, rfl⟩, rfl⟩, d.name, mem_namesOf.mpr h, rfl⟩

theorem WellFiled.nodup_definitionsOf (h : catalog.WellFiled) :
    (definitionsOf catalog.entries).Nodup := by
  unfold definitionsOf
  rw [List.nodup_flatMap]
  constructor
  · intro entry hmem
    apply (h.entry_of_mem entry hmem).nodup_names.map
    intro name other heq
    exact congrArg Definition.name heq
  · have hkinds : catalog.entries.Pairwise fun entry other ↦ entry.kind ≠ other.kind :=
      List.pairwise_map.mp h.nodup_kinds
    apply hkinds.imp
    intro entry other hne d hd hother
    obtain ⟨name, _, rfl⟩ := List.mem_map.mp hd
    obtain ⟨_, _, heq⟩ := List.mem_map.mp hother
    exact hne (congrArg Definition.kind heq).symm

/-- Repeating some of a history changes nothing. -/
theorem insertAll_repeated (h : ∀ d ∈ more, d ∈ history) :
    insertAll ∅ (history ++ more) = insertAll ∅ history := by
  rw [insertAll_append]
  apply insertAll_of_forall_mem
  intro d hd
  exact mem_names_insertAll_of_mem (h d hd)

end Catalog

namespace Register

open Catalog (definitionsOf)

variable {a b c : Register} {first second history : List Definition}

/-- The union of two registers, in the order of the first and then of the second. -/
instance : Add Register where
  add a b := (a.merge b.entries).1

/-- The register of some definitions. -/
def ofDefinitions (definitions : List Definition) : Register :=
  (insertAll ∅ definitions).1

theorem beq_iff : (a == b) = true ↔ a.toCatalog = b.toCatalog := by
  change (a.entries == b.entries) = true ↔ _
  rw [beq_iff_eq]
  exact ⟨congrArg Catalog.mk, congrArg Catalog.entries⟩

theorem FilledWith.beq (ha : a.FilledWith first) (hb : b.FilledWith second)
    (h : Catalog.insertAll ∅ first = Catalog.insertAll ∅ second) : (a == b) = true := by
  rw [beq_iff, ha.toCatalog_eq, hb.toCatalog_eq, h]

theorem filledWith_ofDefinitions (definitions : List Definition) :
    (ofDefinitions definitions).FilledWith (definitions.map Definition.lowered) :=
  filledWith_empty.insertAll definitions

theorem filledWith_ofEntries (entries : List Entry) :
    (ofEntries entries).FilledWith ((definitionsOf entries).map Definition.lowered) :=
  filledWith_empty.insertAll (definitionsOf entries)

theorem FilledWith.add (ha : a.FilledWith first) (hb : b.FilledWith second) :
    (a + b).FilledWith (first ++ second) where
  toCatalog_eq := by
    have hentries : b.entries = (Catalog.insertAll ∅ second).entries :=
      congrArg Catalog.entries hb.toCatalog_eq
    calc
      (a + b).toCatalog = a.toCatalog.merge b.entries := toCatalog_merge a b.entries
      _ = (Catalog.insertAll ∅ first).merge (Catalog.insertAll ∅ second).entries := by
        rw [ha.toCatalog_eq, hentries]
      _ = (Catalog.insertAll ∅ first).insertAll second := Catalog.merge_insertAll hb.lower_kind
      _ = Catalog.insertAll ∅ (first ++ second) := (Catalog.insertAll_append _ _ _).symm
  lower_kind d hmem := (List.mem_append.mp hmem).elim (ha.lower_kind d) (hb.lower_kind d)

theorem FilledWith.ofEntries_beq (h : a.FilledWith history) : (ofEntries a.entries == a) = true := by
  rw [beq_iff, toCatalog_ofEntries]
  exact Catalog.ofEntries_entries h.wellFiled

theorem FilledWith.nodup_definitionsOf (h : a.FilledWith history) :
    (definitionsOf a.entries).Nodup :=
  h.wellFiled.nodup_definitionsOf

theorem FilledWith.mem_definitionsOf {d : Definition} (h : a.FilledWith history) :
    d ∈ definitionsOf a.entries ↔ d ∈ history := by
  rw [h.entries_eq, Catalog.mem_definitionsOf_firstSeen]

theorem FilledWith.definitionsOf_add_perm (ha : a.FilledWith first) (hb : b.FilledWith second) :
    (definitionsOf (a + b).entries).Perm (definitionsOf a.entries ++
      (definitionsOf b.entries).filter (· ∉ definitionsOf a.entries)) := by
  have hunion : (definitionsOf (a + b).entries).Nodup := (ha.add hb).nodup_definitionsOf
  have hparts : (definitionsOf a.entries ++
      (definitionsOf b.entries).filter (· ∉ definitionsOf a.entries)).Nodup := by
    apply List.Nodup.append ha.nodup_definitionsOf
      (hb.nodup_definitionsOf.filter _)
    intro d hd hnew
    exact of_decide_eq_true (List.mem_filter.mp hnew).2 hd
  rw [List.perm_ext_iff_of_nodup hunion hparts]
  intro d
  rw [(ha.add hb).mem_definitionsOf, List.mem_append, List.mem_append, List.mem_filter,
    decide_eq_true_iff, ha.mem_definitionsOf, hb.mem_definitionsOf]
  by_cases hd : d ∈ first
  · simp [hd]
  · simp [hd]

theorem length_definitionsOf_entries (register : Register) :
    (definitionsOf register.entries).length = register.size :=
  (size_eq register).symm

theorem FilledWith.merge_count (ha : a.FilledWith first) (hb : b.FilledWith second) :
    (a.merge b.entries).2 =
      (definitionsOf b.entries).countP (· ∉ definitionsOf a.entries) := by
  have hgrowth : (a + b).size = a.size + (a.merge b.entries).2 := size_insertAll a _
  have hlength := (ha.definitionsOf_add_perm hb).length_eq
  rw [List.length_append, ← List.countP_eq_length_filter, length_definitionsOf_entries,
    length_definitionsOf_entries] at hlength
  omega

theorem FilledWith.definitionsOf_comm (ha : a.FilledWith first) (hb : b.FilledWith second) :
    (definitionsOf (a + b).entries).Perm (definitionsOf (b + a).entries) := by
  rw [List.perm_ext_iff_of_nodup (ha.add hb).nodup_definitionsOf
    (hb.add ha).nodup_definitionsOf]
  intro d
  calc
    d ∈ definitionsOf (a + b).entries ↔ d ∈ first ++ second := (ha.add hb).mem_definitionsOf
    _ ↔ d ∈ second ++ first := by rw [List.mem_append, List.mem_append, or_comm]
    _ ↔ d ∈ definitionsOf (b + a).entries := (hb.add ha).mem_definitionsOf.symm

/-- The laws of unions for three registers. -/
structure UnionLaws (a b c : Register) : Prop where
  assoc : (a + b + c == a + (b + c)) = true
  add_empty : (a + ∅ == a) = true
  empty_add : (∅ + a == a) = true
  add_self : (a + a == a) = true
  add_add_self : (a + b + a == a + b) = true
  count_new : (a.merge b.entries).2 =
    (definitionsOf b.entries).countP (· ∉ definitionsOf a.entries)
  comm_perm : (definitionsOf (a + b).entries).Perm (definitionsOf (b + a).entries)
  ofEntries_entries : (ofEntries a.entries == a) = true

theorem FilledWith.unionLaws {third : List Definition} (ha : a.FilledWith first)
    (hb : b.FilledWith second) (hc : c.FilledWith third) : UnionLaws a b c := by
  constructor
  case assoc =>
    apply ((ha.add hb).add hc).beq (ha.add (hb.add hc))
    rw [List.append_assoc]
  case add_empty =>
    apply (ha.add filledWith_empty).beq ha
    rw [List.append_nil]
  case empty_add =>
    apply (filledWith_empty.add ha).beq ha
    rw [List.nil_append]
  case add_self =>
    apply (ha.add ha).beq ha
    exact Catalog.insertAll_repeated fun d hd ↦ hd
  case add_add_self =>
    apply ((ha.add hb).add ha).beq (ha.add hb)
    exact Catalog.insertAll_repeated fun d hd ↦ List.mem_append_left second hd
  case count_new => exact ha.merge_count hb
  case comm_perm => exact ha.definitionsOf_comm hb
  case ofEntries_entries => exact ha.ofEntries_beq

/-- Filing one list after another is the union of filing each apart, the union of any three registers
obeys the laws of ordered unions, and the entries of a register that was made from any entries
make the same register. -/
theorem union_laws :
    (∀ xs ys : List Definition,
      (ofDefinitions (xs ++ ys) == ofDefinitions xs + ofDefinitions ys) = true) ∧
    (∀ as bs cs : List Change, UnionLaws (run as) (run bs) (run cs)) ∧
    (∀ entries : List Entry,
      (ofEntries (ofEntries entries).entries == ofEntries entries) = true) := by
  refine ⟨?_, ?_, ?_⟩
  · intro xs ys
    apply (filledWith_ofDefinitions (xs ++ ys)).beq
      ((filledWith_ofDefinitions xs).add (filledWith_ofDefinitions ys))
    rw [List.map_append]
  · intro as bs cs
    exact (filledWith_history as).unionLaws (filledWith_history bs) (filledWith_history cs)
  · intro entries
    exact (filledWith_ofEntries entries).ofEntries_beq

end Register

end DefCatalog
