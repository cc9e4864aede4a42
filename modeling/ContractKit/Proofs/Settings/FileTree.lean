import ContractKit.Proofs.Settings.Path
import ContractKit.Settings.FileTree

/-!
# `Proofs/Settings/FileTree.lean`: the places of files

A path finds the file at the place that it leads to by name alone: going through directories on the way
can keep it from finding one, but leads nowhere else (`FileTree.lookup_of_read?`).
-/

set_option autoImplicit false

namespace ContractKit.FileTree

variable {tree : FileTree}

/-- The directory that a name leads to from another one. -/
def next (directory : List String) (name : String) : List String :=
  if name = "" ∨ name = "." then directory
  else if name = ".." then directory.dropLast
  else directory ++ [name]

/-- A name that is entered does not lead above the top, and what it leads to is entered next. -/
theorem enter_next {directory directory' : List String} {name : String} {rest : List String}
    (h : tree.enter directory (name :: rest) = some directory') :
    ¬ (directory = [] ∧ name = "..") ∧ tree.enter (next directory name) rest = some directory' := by
  rw [enter.eq_def] at h
  split at h
  · next heq => cases heq
  · cases h
  · next directory _ _ _ _ hup heq =>
    obtain ⟨rfl, rfl⟩ := List.cons.inj heq
    constructor
    · rintro ⟨hnil, rfl⟩
      exact hup hnil rfl
    · change (if tree.isDirectory (FileTree.next directory name) then
        tree.enter (FileTree.next directory name) rest else none) = some directory' at h
      split at h
      · exact h
      · cases h

/-- **Directories that are entered one after the other are those on the way by name.** -/
theorem way_of_enter {names directory directory' : List String}
    (h : tree.enter directory names = some directory') (hdirectory : ".." ∉ directory) :
    directory' = ((names.filter fun name => name != "" && name != ".").foldl (Path.walk false)
      directory.reverse).reverse := by
  induction names generalizing directory with
  | nil =>
    rw [enter] at h
    simpa using (Option.some.inj h).symm
  | cons name rest ih =>
    obtain ⟨htop, h⟩ := enter_next h
    by_cases hstay : name = "" ∨ name = "."
    · rw [next, if_pos hstay] at h
      rw [ih h hdirectory]
      rcases hstay with rfl | rfl
      · rfl
      · rfl
    · obtain ⟨hempty, hdot⟩ := not_or.mp hstay
      rw [next, if_neg hstay] at h
      rw [List.filter_cons_of_pos (by simp [hempty, hdot]), List.foldl_cons]
      by_cases hup : name = ".."
      · subst hup
        rw [if_pos rfl] at h
        -- what is left is a name, and no step up that would lead further
        cases hlast : directory.getLast? with
        | none => exact absurd ⟨List.getLast?_eq_none_iff.mp hlast, rfl⟩ htop
        | some last =>
          obtain ⟨others, rfl⟩ := List.getLast?_eq_some_iff.mp hlast
          rw [List.mem_append, List.mem_singleton, not_or] at hdirectory
          rw [List.dropLast_concat] at h
          rw [ih h hdirectory.1]
          simp [Path.walk, Ne.symm hdirectory.2]
      · rw [if_neg hup] at h
        rw [ih h (by simp [hdirectory, Ne.symm hup])]
        simp [Path.walk, hup]

/-- The path of a file is relative. -/
theorem rootOf_of_canBePath {path : String} (h : canBePath path = true) : Path.rootOf path = "" := by
  have hslash : path.startsWith "/" = false := by
    simp only [canBePath, Bool.and_eq_true, Bool.not_eq_true'] at h
    exact h.2
  rw [String.startsWith_string_eq_false_iff] at hslash
  refine Path.rootOf_of_relative fun rest hrest => hslash ?_
  rw [hrest]
  exact List.cons_prefix_cons.mpr ⟨rfl, List.nil_prefix⟩

/-- The path of a file is relative, and is the path of a directory with a name behind it. -/
theorem read?_eq_some {path : String} {d : Document} (h : tree.read? path = some d) :
    Path.rootOf path = "" ∧ ∃ names last directory, Path.pieces path = names ++ [last] ∧
      ¬ (last = "" ∨ last = "." ∨ last = "..") ∧ tree.enter [] names = some directory ∧
      tree.lookup (directory ++ [last]) = some d := by
  rw [read?] at h
  by_cases hpath : canBePath path = true
  · have hnonempty : Path.pieces path ≠ [] := by
      simp [Path.pieces, List.splitOn_ne_nil]
    obtain ⟨names, last, hpieces⟩ : ∃ names last, Path.pieces path = names ++ [last] :=
      ⟨_, _, (List.dropLast_concat_getLast hnonempty).symm⟩
    simp only [hpath, Bool.not_true, Bool.false_eq_true, if_false, hpieces, List.getLastD_concat,
      List.dropLast_concat] at h
    by_cases hlast : last = "" ∨ last = "." ∨ last = ".."
    · simp [hlast] at h
    · simp only [hlast, if_false] at h
      cases henter : tree.enter [] names with
      | none => simp [henter] at h
      | some directory =>
        refine ⟨?_, names, last, directory, hpieces, hlast, henter, ?_⟩
        · exact rootOf_of_canBePath hpath
        · simpa [henter] using h
  · simp [hpath] at h

/-- **A file is found at the place that its path leads to by name.** Steps upwards on the way are taken
by name here, which is the same because the directories on the way exist. -/
theorem lookup_of_read? {path : String} {d : Document} (h : tree.read? path = some d) :
    (Path.ofText path).EndsInName ∧ ∃ names, (Path.ofText path).destination = ⟨"", names⟩ ∧
      tree.lookup names = some d := by
  obtain ⟨hroot, names, last, directory, hpieces, hlast, henter, hlookup⟩ := read?_eq_some h
  obtain ⟨hempty, hdot, hup⟩ : last ≠ "" ∧ last ≠ "." ∧ last ≠ ".." := by
    simpa [not_or] using hlast
  have hnames : (Path.ofText path).names =
      (names.filter fun name => name != "" && name != ".") ++ [last] := by
    simp [Path.ofText, hpieces, hempty, hdot]
  refine ⟨⟨_, last, hnames, hup⟩, directory ++ [last], ?_, hlookup⟩
  have hway := way_of_enter henter List.not_mem_nil
  have hrelative : (Path.ofText path).root = "" := hroot
  simp [Path.destination, hnames, hrelative, Path.walk, hup, hway]

/-! ## Files beside each other -/

end ContractKit.FileTree
