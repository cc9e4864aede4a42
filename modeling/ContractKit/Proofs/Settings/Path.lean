import ContractKit.Settings.Path

/-!
# `Proofs/Settings/Path.lean`: paths and their texts

Names that are read from a text are words without slashes, and neither empty nor `.` (`Path.IsName`). A
path of such names is what its text is read as (`Path.ofText_text`), so nothing is lost where a path that
was put together is handed on as a text.
-/

set_option autoImplicit false

namespace ContractKit.Path

/-- A name of a path as it is read from a text. Empty parts and dots are left out when a path is read,
while two dots stay, since what is above a name is told by the file system alone. -/
structure IsName (name : String) : Prop where
  ne_empty : name ≠ ""
  ne_dot : name ≠ "."
  no_slash : '/' ∉ name.toList

/-- A path as it is read from a text. Joining and taking the parent keep this, so paths are told apart
by their parts wherever they come from. -/
structure Sound (p : Path) : Prop where
  root : p.root = "" ∨ p.root = "/" ∨ p.root = "//"
  names : ∀ name ∈ p.names, IsName name

/-- What stands between separators holds none. -/
theorem not_mem_of_mem_splitOn {α : Type} [BEq α] [LawfulBEq α] {a : α} {xs : List α} :
    ∀ piece ∈ xs.splitOn a, a ∉ piece := by
  induction xs with
  | nil => simp
  | cons x xs ih =>
    intro piece hpiece
    rw [List.splitOn_cons_eq_if_modifyHead] at hpiece
    by_cases hx : (x == a) = true
    · rw [if_pos hx] at hpiece
      rcases List.mem_cons.mp hpiece with rfl | hpiece
      · exact List.not_mem_nil
      · exact ih piece hpiece
    · rw [if_neg hx] at hpiece
      cases hsplit : xs.splitOn a with
      | nil => exact absurd hsplit (List.splitOn_ne_nil a xs)
      | cons first rest =>
        rw [hsplit] at hpiece ih
        rw [List.modifyHead_cons] at hpiece
        rcases List.mem_cons.mp hpiece with rfl | hpiece
        · intro hmem
          rcases List.mem_cons.mp hmem with rfl | hmem
          · exact hx (beq_self_eq_true a)
          · exact ih first List.mem_cons_self hmem
        · exact ih piece (List.mem_cons_of_mem _ hpiece)

/-! ## Reading -/

theorem rootOf_cases (text : String) : rootOf text = "" ∨ rootOf text = "/" ∨ rootOf text = "//" := by
  unfold rootOf
  split
  · exact .inr (.inl rfl)
  · exact .inr (.inr rfl)
  · exact .inr (.inl rfl)
  · exact .inl rfl

theorem rootOf_of_relative {text : String} (h : ∀ rest, text.toList ≠ '/' :: rest) :
    rootOf text = "" := by
  unfold rootOf
  split
  · next heq => exact absurd heq (h _)
  · next heq => exact absurd heq (h _)
  · next heq => exact absurd heq (h _)
  · rfl

theorem sound_ofText (text : String) : (ofText text).Sound := by
  refine ⟨rootOf_cases text, ?_⟩
  intro name hname
  obtain ⟨hpiece, hword⟩ := List.mem_filter.mp hname
  obtain ⟨hempty, hdot⟩ : name ≠ "" ∧ name ≠ "." := by simpa using hword
  obtain ⟨letters, hletters, rfl⟩ := List.mem_map.mp hpiece
  refine ⟨hempty, hdot, ?_⟩
  rw [String.toList_ofList]
  exact not_mem_of_mem_splitOn letters hletters

theorem Sound.parent {p : Path} (h : p.Sound) : p.parent.Sound :=
  ⟨h.root, fun name hname => h.names name (List.dropLast_subset _ hname)⟩

theorem Sound.join {p q : Path} (hp : p.Sound) (hq : q.Sound) : (p.join q).Sound := by
  unfold Path.join
  split
  · refine ⟨hp.root, ?_⟩
    intro name hname
    rcases List.mem_append.mp hname with hname | hname
    · exact hp.names name hname
    · exact hq.names name hname
  · exact hq

/-! ## Writing and reading again -/

/-- Names that are written with slashes between them are read again. -/
theorem names_of_intercalate {names : List String} (h : ∀ name ∈ names, IsName name) :
    (pieces ("/".intercalate names)).filter (fun name => name != "" && name != ".") = names := by
  cases names with
  | nil => decide
  | cons name names =>
    have hpieces : pieces ("/".intercalate (name :: names)) = name :: names := by
      have hslash : "/".toList = ['/'] := rfl
      rw [pieces, String.toList_intercalate, hslash, List.splitOn_intercalate]
      · simp
      · intro letters hletters
        obtain ⟨other, hother, rfl⟩ := List.mem_map.mp hletters
        exact (h other hother).no_slash
      · simp
    rw [hpieces, List.filter_eq_self]
    intro other hother
    simp [(h other hother).ne_empty, (h other hother).ne_dot]

/-- What is written of names does not start with a slash. -/
theorem head?_intercalate_ne {names : List String} (h : ∀ name ∈ names, IsName name) :
    ("/".intercalate names).toList.head? ≠ some '/' := by
  cases names with
  | nil => decide
  | cons name names =>
    obtain ⟨hempty, -, hslash⟩ := h name List.mem_cons_self
    have hhead : ("/".intercalate (name :: names)).toList.head? = name.toList.head? := by
      have hne : name.toList ≠ [] := fun hnil => hempty (String.toList_eq_nil_iff.mp hnil)
      obtain ⟨c, cs, hcs⟩ := List.exists_cons_of_ne_nil hne
      cases names with
      | nil => simp
      | cons other names => simp [hcs]
    rw [hhead]
    intro hc
    exact hslash (List.mem_of_mem_head? hc)

/-- A root that is written in front of anything else than a slash is read again. -/
theorem rootOf_append {root rest : String} (hroot : root = "" ∨ root = "/" ∨ root = "//")
    (hrest : rest.toList.head? ≠ some '/') : rootOf (root ++ rest) = root := by
  have hfirst : rest.toList = [] ∨ ∃ c cs, rest.toList = c :: cs ∧ c ≠ '/' := by
    cases hletters : rest.toList with
    | nil => exact .inl rfl
    | cons c cs =>
      refine .inr ⟨c, cs, rfl, ?_⟩
      rintro rfl
      exact hrest (by rw [hletters]; rfl)
  unfold rootOf
  rw [String.toList_append]
  rcases hfirst with hnil | ⟨c, cs, hcs, hc⟩
  · rw [hnil]
    rcases hroot with rfl | rfl | rfl
    · rfl
    · rfl
    · rfl
  · rw [hcs]
    rcases hroot with rfl | rfl | rfl
    · simp [hc]
    · simp [hc]
    · simp [hc]

/-- Slashes in front do not change the names that are read. -/
theorem names_root_append {root : String} (hroot : root = "" ∨ root = "/" ∨ root = "//")
    (rest : String) : (ofText (root ++ rest)).names = (ofText rest).names := by
  rcases hroot with rfl | rfl | rfl
  · rw [String.empty_append]
  · simp [ofText, pieces, List.splitOn_cons_eq_if_modifyHead]
  · simp [ofText, pieces, List.splitOn_cons_eq_if_modifyHead]

/-- **A path is what its text is read as.** -/
theorem ofText_text {p : Path} (h : p.Sound) : ofText p.text = p := by
  obtain ⟨root, names⟩ := p
  obtain ⟨hroot, hnames⟩ := h
  unfold text
  split
  · next hempty =>
    -- the path of nothing is written as a dot
    obtain ⟨hroot, hnil⟩ := String.append_eq_empty_iff.mp hempty
    obtain rfl : root = "" := hroot
    obtain rfl : names = [] := by
      have hread := names_of_intercalate hnames
      rw [hnil] at hread
      exact hread.symm
    decide
  · have hread : (ofText (root ++ "/".intercalate names)).names = names :=
      (names_root_append hroot _).trans (names_of_intercalate hnames)
    have hfound : (ofText (root ++ "/".intercalate names)).root = root :=
      rootOf_append hroot (head?_intercalate_ne hnames)
    rw [Path.mk.injEq]
    exact ⟨hfound, hread⟩

/-! ## Single names -/

/-- A text without slashes is one piece. -/
theorem pieces_of_no_slash {text : String} (h : '/' ∉ text.toList) : pieces text = [text] := by
  rw [pieces, List.splitOn_eq_singleton h, List.map_singleton, String.ofList_toList]

theorem rootOf_of_no_slash {text : String} (h : '/' ∉ text.toList) : rootOf text = "" :=
  rootOf_of_relative fun _ hrest => h (hrest ▸ List.mem_cons_self)

/-- A name is read as the path of itself. -/
theorem IsName.ofText {name : String} (h : IsName name) : ofText name = ⟨"", [name]⟩ := by
  rw [Path.ofText, rootOf_of_no_slash h.no_slash, pieces_of_no_slash h.no_slash]
  simp [h.ne_empty, h.ne_dot]

theorem IsName.text {name : String} (h : IsName name) : (⟨"", [name]⟩ : Path).text = name := by
  have hread : ("" : String) ++ "/".intercalate [name] = name := by simp
  rw [Path.text, hread]
  split
  · exact absurd rfl h.ne_empty
  · rfl

/-- A name that is read beside another one is the path of itself again. -/
theorem IsName.text_join {name other : String} (h : IsName name) (hother : IsName other) :
    ((Path.ofText other).parent.join (Path.ofText name)).text = name := by
  rw [h.ofText, hother.ofText]
  exact h.text

theorem IsName.destination {name : String} (h : IsName name) (hup : name ≠ "..") :
    (Path.ofText name).destination = ⟨"", [name]⟩ := by
  rw [h.ofText, Path.destination]
  simp [walk, hup]

/-! ## Places -/

/-- The path leads to what its last name says, and not out of it. -/
def EndsInName (p : Path) : Prop := ∃ names last, p.names = names ++ [last] ∧ last ≠ ".."

/-- Without its last name a path leads to what holds the place. -/
theorem EndsInName.foldl_dropLast {p : Path} (h : p.EndsInName) :
    p.names.dropLast.foldl (walk (p.root != "")) [] = p.destination.names.reverse.tail := by
  obtain ⟨names, last, hnames, hlast⟩ := h
  simp [destination, hnames, walk, hlast]

/-- **Where a path leads that is read beside another one is told by where that one leads.** -/
theorem destination_join_congr {p p' : Path} (q : Path) (hp : p.EndsInName) (hp' : p'.EndsInName)
    (h : p.destination = p'.destination) :
    (p.parent.join q).destination = (p'.parent.join q).destination := by
  have hroot : p.destination.root = p'.destination.root := congrArg Path.root h
  change p.root = p'.root at hroot
  have hway : p.names.dropLast.foldl (walk (p.root != "")) [] =
      p'.names.dropLast.foldl (walk (p'.root != "")) [] := by
    rw [hp.foldl_dropLast, hp'.foldl_dropLast, h]
  unfold join
  by_cases hq : q.root = ""
  · simp only [if_pos hq, destination, parent, List.foldl_append]
    rw [hway, hroot]
  · rw [if_neg hq, if_neg hq]

end ContractKit.Path
