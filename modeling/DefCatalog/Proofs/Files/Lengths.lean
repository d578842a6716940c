import DefCatalog.Proofs.Files.Components

/-!
# Long paths

A path that is too long leads nowhere, although each of its steps may lead on. Dots between slashes
are no steps, so they make a path longer and leave the place that it stands for as it is.
-/

namespace DefCatalog

open FileSystem

namespace Path

variable {path base : Path} {name : Text} {names : List Text}

/-- The number of bytes that the spelling of a path takes. -/
def size (path : Path) : Nat :=
  (Utf8.encode path.spelling).length

theorem isTooLong_iff : path.isTooLong = true ↔ maxBytes < path.size :=
  decide_eq_true_iff

theorem isTooLong_eq_false_iff : path.isTooLong = false ↔ path.size ≤ maxBytes := by
  rw [← Bool.not_eq_true, isTooLong_iff, Nat.not_lt]

/-- Whether a name that is put after the path is separated from it by a slash of its own. -/
structure IsOpen (path : Path) : Prop where
  spelling_ne_nil : path.spelling ≠ []
  getLast?_ne : path.spelling.getLast? ≠ some '/'

theorem IsOpen.join (hbase : base.IsOpen) (hname : IsEntryName name) :
    (base.join ⟨name⟩).IsOpen where
  spelling_ne_nil := by
    rw [spelling_join (isAbsolute_of_not_mem hname.2) hbase.spelling_ne_nil hbase.getLast?_ne]
    simp
  getLast?_ne := by
    have hlast : ('/' :: name).getLast? = name.getLast? := by
      cases name with
      | nil => exact absurd hname.1.1 (by decide)
      | cons c rest => exact List.getLast?_cons_cons
    rw [spelling_join (isAbsolute_of_not_mem hname.2) hbase.spelling_ne_nil hbase.getLast?_ne,
      List.getLast?_append_of_ne_nil _ (List.cons_ne_nil _ _), hlast]
    exact fun hslash ↦ hname.2 (List.mem_of_getLast? hslash)

theorem size_join (hbase : base.IsOpen) (hname : '/' ∉ name) :
    (base.join ⟨name⟩).size = base.size + (1 + (Utf8.encode name).length) := by
  have hslash : (Utf8.encode ('/' :: name)).length = 1 + (Utf8.encode name).length := by
    rw [Utf8.encode, List.flatMap_cons, List.length_append]
    rfl
  calc
    (base.join ⟨name⟩).size = (Utf8.encode (base.spelling ++ '/' :: name)).length := by
      rw [size, spelling_join (isAbsolute_of_not_mem hname) hbase.spelling_ne_nil hbase.getLast?_ne]
    _ = base.size + (Utf8.encode ('/' :: name)).length := by
      rw [Utf8.encode, List.flatMap_append, List.length_append]
      rfl
    _ = base.size + (1 + (Utf8.encode name).length) := by rw [hslash]

/-- The number of bytes that names take, each behind a slash. -/
def sizeOfNames : List Text → Nat
  | [] => 0
  | name :: names => 1 + (Utf8.encode name).length + sizeOfNames names

theorem size_below (hbase : base.IsOpen) (hnames : ∀ name ∈ names, IsEntryName name) :
    (base.below names).size = base.size + sizeOfNames names := by
  induction names generalizing base with
  | nil => rfl
  | cons name names ih =>
    obtain ⟨hname, hrest⟩ := List.forall_mem_cons.mp hnames
    calc
      (base.below (name :: names)).size = ((base.join ⟨name⟩).below names).size := rfl
      _ = base.size + (1 + (Utf8.encode name).length) + sizeOfNames names := by
        rw [ih (hbase.join hname) hrest, size_join hbase hname.2]
      _ = base.size + sizeOfNames (name :: names) := by rw [sizeOfNames, Nat.add_assoc]

/-- The path with dots after it, each behind a slash. -/
def dotted (path : Path) : Nat → Path
  | 0 => path
  | count + 1 => ⟨(path.dotted count).spelling ++ ['/', '.']⟩

theorem size_dotted (path : Path) (count : Nat) :
    (path.dotted count).size = path.size + 2 * count := by
  induction count with
  | zero => rfl
  | succ count ih =>
    have htwo : (Utf8.encode ['/', '.']).length = 2 := by decide
    calc
      (path.dotted (count + 1)).size =
          (path.dotted count).size + (Utf8.encode ['/', '.']).length := by
        rw [size, dotted, Utf8.encode, List.flatMap_append, List.length_append]
        rfl
      _ = path.size + 2 * (count + 1) := by
        rw [ih, htwo]
        omega

theorem steps_dotted (path : Path) (count : Nat) : (path.dotted count).steps = path.steps := by
  induction count with
  | zero => rfl
  | succ count ih =>
    have hidle : (Text.splitOn '/' ['.']).filter (!isIdle ·) = [] := rfl
    calc
      (path.dotted (count + 1)).steps =
          (path.dotted count).steps ++ (Text.splitOn '/' ['.']).filter (!isIdle ·) := by
        rw [steps, dotted, Text.splitOn_append_separator, List.filter_append]
        rfl
      _ = path.steps := by rw [hidle, List.append_nil, ih]

theorem IsOpen.dotted (h : path.IsOpen) (count : Nat) : (path.dotted count).IsOpen := by
  cases count with
  | zero => exact h
  | succ count =>
    exact ⟨by simp [Path.dotted], by simp [Path.dotted]⟩

/-- Whether two paths take the same steps from the same place, however they are spelled, and names
can be put after them. -/
structure StepsAlike (path other : Path) : Prop where
  isOpen_left : path.IsOpen
  isOpen_right : other.IsOpen
  steps_eq : path.steps = other.steps
  isAbsolute_eq : path.isAbsolute = other.isAbsolute

namespace StepsAlike

variable {other : Path}

theorem symm (h : path.StepsAlike other) : other.StepsAlike path :=
  ⟨h.isOpen_right, h.isOpen_left, h.steps_eq.symm, h.isAbsolute_eq.symm⟩

theorem join (h : path.StepsAlike other) (hname : IsEntryName name) :
    (path.join ⟨name⟩).StepsAlike (other.join ⟨name⟩) where
  isOpen_left := h.isOpen_left.join hname
  isOpen_right := h.isOpen_right.join hname
  steps_eq := by rw [steps_join hname, steps_join hname, h.steps_eq]
  isAbsolute_eq := by
    rw [isAbsolute_join h.isOpen_left.spelling_ne_nil hname.2,
      isAbsolute_join h.isOpen_right.spelling_ne_nil hname.2, h.isAbsolute_eq]

theorem below (h : path.StepsAlike other) (hnames : ∀ name ∈ names, IsEntryName name) :
    (path.below names).StepsAlike (other.below names) := by
  induction names generalizing path other with
  | nil => exact h
  | cons name names ih =>
    obtain ⟨hname, hrest⟩ := List.forall_mem_cons.mp hnames
    exact ih (h.join hname) hrest

end StepsAlike

theorem stepsAlike_dotted (h : path.IsOpen) (count : Nat) :
    (path.dotted count).StepsAlike path where
  isOpen_left := h.dotted count
  isOpen_right := h
  steps_eq := steps_dotted path count
  isAbsolute_eq := by
    induction count with
    | zero => rfl
    | succ count ih =>
      obtain ⟨c, rest, hcons⟩ := List.exists_cons_of_ne_nil (h.dotted count).spelling_ne_nil
      rw [← ih]
      simp [isAbsolute, Path.dotted, hcons]

end Path

/-- Paths that take the same steps lead to the same directory, unless they are too long. -/
theorem FileSystem.locate_of_stepsAlike {files : FileSystem} {path other : Path}
    {directory : Location} (halike : path.StepsAlike other) (hshort : path.isTooLong = false)
    (hother : files.locate other = .ok directory)
    (hdirectory : files.isDirectoryAt directory = true) : files.locate path = .ok directory := by
  obtain ⟨left, hwalk⟩ := locate_eq_ok hother
  have hfiltered := walk_filter.mp ⟨hwalk, hdirectory⟩
  rw [← Path.steps, ← halike.steps_eq, Path.steps, ← origin_congr halike.isAbsolute_eq]
    at hfiltered
  rw [locate_eq_map halike.isOpen_left.spelling_ne_nil hshort, (walk_filter.mpr hfiltered).1]
  rfl

end DefCatalog
