import DefCatalog.Proofs.Catalog.History
import DefCatalog.Proofs.Text.Context
import Mathlib.Data.List.Infix

/-!
# What a lookup finds

A name matches a filter if its lower-case form contains that of the filter, and a lookup finds the
first names that match. A filter that occurs in a name as it stands matches it, unless a capital
sigma ends a word in one of them and not in the other: then its lower-case forms are different
letters.
-/

namespace DefCatalog

namespace Catalog

variable {catalog : Catalog} {kind filter name : Text} {names earlier later : List Text}

/-- Whether the lower-case form of a name contains that of a filter. -/
def Matches (filter name : Text) : Prop :=
  Text.lower filter <:+: Text.lower name

instance (filter name : Text) : Decidable (Matches filter name) :=
  decidable_of_iff _ Text.contains_iff

theorem lookup_eq (catalog : Catalog) (kind filter : Text) :
    catalog.lookup kind filter = ((catalog.names kind).filter (Matches filter ·)).take 50 := by
  have hmatches : (fun name ↦ Text.contains (Text.lower filter) (Text.lower name)) =
      fun name ↦ decide (Matches filter name) := by
    funext name
    rw [Bool.eq_iff_iff, decide_eq_true_iff]
    exact Text.contains_iff
  unfold lookup
  rw [hmatches]
  rfl

theorem WellFiled.nodup_names (h : catalog.WellFiled) (kind : Text) :
    (catalog.names kind).Nodup := by
  unfold names namesIn
  split
  · rename_i entry hfind
    exact (h.entry_of_mem entry (List.mem_of_find?_eq_some hfind)).nodup_names
  · exact List.nodup_nil

/-- The first matches, up to a limit, are the matches among the names that are looked at. If there
are fewer of them than the limit, no other name matches. -/
theorem exists_take_filter_eq (p : Text → Bool) (limit : Nat) (names : List Text) :
    ∃ front rest, names = front ++ rest ∧ (names.filter p).take limit = front.filter p ∧
      ((front.filter p).length = limit ∨ ∀ name ∈ rest, p name = false) := by
  induction names generalizing limit with
  | nil => exact ⟨[], [], rfl, List.take_nil, Or.inr fun _ hname ↦ absurd hname List.not_mem_nil⟩
  | cons name names ih =>
    by_cases hname : p name = true
    · cases limit with
      | zero => exact ⟨[], name :: names, rfl, List.take_zero, Or.inl rfl⟩
      | succ limit =>
        obtain ⟨front, rest, rfl, htake, hrest⟩ := ih limit
        refine ⟨name :: front, rest, rfl, ?_, ?_⟩
        · rw [List.filter_cons_of_pos hname, List.filter_cons_of_pos hname, List.take_succ_cons,
            htake]
        · rw [List.filter_cons_of_pos hname, List.length_cons]
          exact hrest.imp_left (congrArg (· + 1))
    · obtain ⟨front, rest, rfl, htake, hrest⟩ := ih limit
      refine ⟨name :: front, rest, rfl, ?_, ?_⟩
      · rw [List.filter_cons_of_neg hname, List.filter_cons_of_neg hname, htake]
      · rw [List.filter_cons_of_neg hname]
        exact hrest

theorem WellFiled.mem_lookup_iff (h : catalog.WellFiled)
    (hnames : catalog.names kind = earlier ++ name :: later) (hname : Matches filter name) :
    name ∈ catalog.lookup kind filter ↔ earlier.countP (Matches filter ·) < 50 := by
  have hfilter : (earlier ++ name :: later).filter (Matches filter ·) =
      earlier.filter (Matches filter ·) ++ name :: later.filter (Matches filter ·) := by
    rw [List.filter_append, List.filter_cons_of_pos (by simpa using hname)]
  have hmem : name ∈ earlier.filter (Matches filter ·) ++ name :: later.filter (Matches filter ·) :=
    List.mem_append_right _ List.mem_cons_self
  have hfirst : name ∉ earlier.filter (Matches filter ·) := by
    intro hearlier
    have hnodup := h.nodup_names kind
    rw [hnames, List.nodup_append] at hnodup
    exact hnodup.2.2 name (List.mem_of_mem_filter hearlier) name List.mem_cons_self rfl
  calc
    name ∈ catalog.lookup kind filter ↔
        (earlier.filter (Matches filter ·) ++ name :: later.filter (Matches filter ·)).idxOf name <
          50 := by
      rw [lookup_eq, hnames, hfilter, List.mem_take_iff_idxOf_lt hmem]
    _ ↔ (earlier.filter (Matches filter ·)).length < 50 := by
      rw [List.idxOf_append_of_notMem hfirst, List.idxOf_cons_self, Nat.add_zero]
    _ ↔ earlier.countP (Matches filter ·) < 50 := by rw [List.countP_eq_length_filter]

end Catalog

namespace Register

open Catalog (Matches)

/-- Whatever was done to a register, a filter that occurs in a name at a place where it keeps its
sigmas finds the name, unless fifty names before it match. So does every filter without sigmas that
occurs in the name. -/
theorem mem_lookup_of_occurs (changes : List Change) {kind name : Text} {earlier later : List Text}
    (hnames : (run changes).toCatalog.names kind = earlier ++ name :: later) (filter : Text) :
    (∀ before after, name = before ++ filter ++ after → Text.KeepsSigmas before filter after →
      (name ∈ (run changes).toCatalog.lookup kind filter ↔
        earlier.countP (Matches filter ·) < 50)) ∧
      ('Σ' ∉ filter → filter <:+: name →
        (name ∈ (run changes).toCatalog.lookup kind filter ↔
          earlier.countP (Matches filter ·) < 50)) := by
  have hfound (before after : Text) (hname : name = before ++ filter ++ after)
      (hsigmas : Text.KeepsSigmas before filter after) :
      name ∈ (run changes).toCatalog.lookup kind filter ↔
        earlier.countP (Matches filter ·) < 50 := by
    have hmatches : Matches filter name := by
      rw [hname]
      exact hsigmas.infix_lower
    exact (filledWith_history changes).wellFiled.mem_lookup_iff hnames hmatches
  refine ⟨hfound, fun hsigma hinfix ↦ ?_⟩
  obtain ⟨before, after, hname⟩ := hinfix
  exact hfound before after hname.symm (Text.keepsSigmas_of_not_mem hsigma)

/-- A sigma within a word is found by one within a word, and letters that are no sigmas by
themselves. -/
theorem mem_lookup_of_occurs_innerSigma :
    (run [.insert "Thing".toList "ΜΑΣΑΣ".toList]).toCatalog.names "thing".toList =
        [] ++ "ΜΑΣΑΣ".toList :: [] ∧
      Text.KeepsSigmas "Μ".toList "ΑΣΑ".toList "Σ".toList ∧
      "ΜΑΣΑΣ".toList ∈ (run [.insert "Thing".toList "ΜΑΣΑΣ".toList]).toCatalog.lookup
        "thing".toList "ΑΣΑ".toList ∧
      "ΜΑΣΑΣ".toList ∈ (run [.insert "Thing".toList "ΜΑΣΑΣ".toList]).toCatalog.lookup
        "thing".toList "ΜΑ".toList := by
  have hnames : (run [.insert "Thing".toList "ΜΑΣΑΣ".toList]).toCatalog.names "thing".toList =
      [] ++ "ΜΑΣΑΣ".toList :: [] := by
    rw [(filledWith_history _).toCatalog_eq]
    decide +kernel
  have hsigmas : Text.KeepsSigmas "Μ".toList "ΑΣΑ".toList "Σ".toList := by decide +kernel
  have hinner := (mem_lookup_of_occurs _ hnames "ΑΣΑ".toList).1 _ _ rfl hsigmas
  have hplain := (mem_lookup_of_occurs _ hnames "ΜΑ".toList).2 (by decide) ⟨[], "ΣΑΣ".toList, rfl⟩
  exact ⟨hnames, hsigmas, hinner.mpr (by decide), hplain.mpr (by decide)⟩

/-- The last letter of the filter `ΑΣ` ends a word, and the same letter in the name `ΑΣΑ` does
not. -/
theorem not_forall_mem_lookup :
    ¬∀ (changes : List Change) (kind filter name : Text) (earlier later : List Text),
      (run changes).toCatalog.names kind = earlier ++ name :: later → filter <:+: name →
        name ∈ (run changes).toCatalog.lookup kind filter ∨
          50 ≤ earlier.countP (Matches filter ·) := by
  intro h
  have hfound := h [.insert "thing".toList "ΑΣΑ".toList] "thing".toList "ΑΣ".toList "ΑΣΑ".toList
    [] []
  rw [(filledWith_history _).toCatalog_eq] at hfound
  revert hfound
  decide +kernel

end Register

end DefCatalog
