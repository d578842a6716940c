import DefCatalog.Files.System

/-!
# Finitely many directories

Two numbers bound every search of a file system: how many directories have not been seen yet, and
how many names can lie on the way to a directory.
-/

namespace DefCatalog.FileSystem

/-- The number of directories that are not among those seen. -/
def unseenCount (files : FileSystem) (seen : List Location) : Nat :=
  files.directories.countP (· ∉ seen)

/-- The greatest number of names on the way to a directory. -/
def depth (files : FileSystem) : Nat :=
  (files.directories.map List.length).foldr max 0

theorem le_foldr_max {n : Nat} {numbers : List Nat} (h : n ∈ numbers) :
    n ≤ numbers.foldr max 0 := by
  induction numbers with
  | nil => simp at h
  | cons m rest ih =>
    rcases List.mem_cons.mp h with rfl | hrest
    · exact Nat.le_max_left _ _
    · exact Nat.le_trans (ih hrest) (Nat.le_max_right _ _)

theorem length_le_depth {files : FileSystem} {location : Location}
    (h : files.isDirectoryAt location = true) : location.length ≤ files.depth :=
  le_foldr_max (List.mem_map_of_mem (mem_directories_of_isDirectoryAt h))

theorem countP_lt_of_mem {α : Type} {p q : α → Bool} {list : List α} {a : α}
    (himp : ∀ x ∈ list, p x = true → q x = true) (ha : a ∈ list) (hp : p a = false)
    (hq : q a = true) : list.countP p < list.countP q := by
  induction list with
  | nil => simp at ha
  | cons b rest ih =>
    have hrest : ∀ x ∈ rest, p x = true → q x = true := fun x hx ↦ himp x (by simp [hx])
    have hle : rest.countP p ≤ rest.countP q := List.countP_mono_left hrest
    rcases List.mem_cons.mp ha with rfl | hmem
    · simp only [List.countP_cons, hp, hq]
      simp
      omega
    · have hlt := ih hrest hmem
      have hb := himp b (by simp)
      simp only [List.countP_cons]
      cases hpb : p b
      · simp
        omega
      · simp [hb hpb, hlt]

theorem unseenCount_cons_le (files : FileSystem) (location : Location) (seen : List Location) :
    files.unseenCount (location :: seen) ≤ files.unseenCount seen := by
  refine List.countP_mono_left fun directory _ h ↦ ?_
  simp only [List.mem_cons, not_or, decide_eq_true_eq] at h ⊢
  exact h.2

/-- Seeing a new directory lowers the number of unseen ones. -/
theorem unseenCount_cons_lt {files : FileSystem} {location : Location} {seen : List Location}
    (hdirectory : files.isDirectoryAt location = true) (hnew : location ∉ seen) :
    files.unseenCount (location :: seen) < files.unseenCount seen := by
  refine countP_lt_of_mem (fun directory _ h ↦ ?_)
    (mem_directories_of_isDirectoryAt hdirectory) (by simp) (by simpa using hnew)
  simp only [List.mem_cons, not_or, decide_eq_true_eq] at h ⊢
  exact h.2

end DefCatalog.FileSystem
