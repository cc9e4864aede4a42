import ContractKit.Codec.Decode

/-!
# `Proofs/Codec/Parts.lean`: the codecs that a codec is made of

What has to be true of a codec for its format to be lossless is said node by node, over all the nodes
of the tree (`parts`): its keys are fit to be keys (`keysFit`), its classes accept every value
(`buildsAll`), and it came from a declaration (`Sound`). A proof about codecs is then an induction
over `children`, and one lemma `mem_parts` carries every condition from a node to the nodes below it.

`strict` is the codec with every container that resolves equal keys turned into one that refuses them.
-/

set_option autoImplicit false

namespace ContractKit

/-- The policy that refuses what the given one resolves. -/
def OrderPolicy.strict : OrderPolicy → OrderPolicy
  | .unique => .strictlyIncreasing
  | order => order

namespace Codec

/-! ## Nodes -/

/-- The codecs that a codec delegates to directly. -/
def children : Codec → List Codec
  | .sequence _ item .. | .optional item | .varTuple item => [item]
  | .set _ member .. => [member]
  | .map key value .. => [key, value]
  | .tuple items => items
  | .struct _ _ fields => fields
  | .variants _ _ _ cases => cases.flatMap (·.2)
  | _ => []

mutual

/-- A codec and all that it delegates to, at any depth. -/
def parts : Codec → List Codec
  | .sequence tuples item width order => .sequence tuples item width order :: parts item
  | .set frozen member width order => .set frozen member width order :: parts member
  | .map key value width order => .map key value width order :: (parts key ++ parts value)
  | .optional item => .optional item :: parts item
  | .tuple items => .tuple items :: partsOfAll items
  | .varTuple item => .varTuple item :: parts item
  | .struct target directions fields => .struct target directions fields :: partsOfAll fields
  | .variants enum directions tag cases =>
    .variants enum directions tag cases :: partsOfCases cases
  | .int format => [.int format]
  | .bool => [.bool]
  | .accountAddress => [.accountAddress]
  | .contractAddress => [.contractAddress]
  | .bytes width order => [.bytes width order]
  | .text width order => [.text width order]
  | .unit target directions => [.unit target directions]
  | .members enum hashable directions tag cases => [.members enum hashable directions tag cases]

/-- The codecs of a list and all that they delegate to. -/
def partsOfAll : List Codec → List Codec
  | [] => []
  | c :: cs => parts c ++ partsOfAll cs

/-- The codecs of the fields of all variants and all that they delegate to. -/
def partsOfCases : List (Target × List Codec) → List Codec
  | [] => []
  | (_, fields) :: rest => partsOfAll fields ++ partsOfCases rest

end

theorem partsOfAll_eq : ∀ cs : List Codec, partsOfAll cs = cs.flatMap parts
  | [] => rfl
  | c :: cs => by rw [partsOfAll, partsOfAll_eq cs, List.flatMap_cons]

theorem partsOfCases_eq : ∀ cases : List (Target × List Codec),
    partsOfCases cases = (cases.flatMap (·.2)).flatMap parts
  | [] => rfl
  | (_, fields) :: rest => by
    rw [partsOfCases, partsOfAll_eq, partsOfCases_eq rest, List.flatMap_cons, List.flatMap_append]

/-- The parts of a codec are itself and the parts of its children. -/
theorem parts_eq (c : Codec) : c.parts = c :: c.children.flatMap parts := by
  cases c <;> simp [parts, children, partsOfAll_eq, partsOfCases_eq]

theorem mem_parts {c d : Codec} : d ∈ c.parts ↔ d = c ∨ ∃ e ∈ c.children, d ∈ e.parts := by
  rw [parts_eq, List.mem_cons, List.mem_flatMap]

theorem self_mem_parts (c : Codec) : c ∈ c.parts := mem_parts.mpr (Or.inl rfl)

/-- What is below a child is below the codec. -/
theorem mem_parts_of_child {c d e : Codec} (hd : d ∈ c.children) (he : e ∈ d.parts) : e ∈ c.parts :=
  mem_parts.mpr (Or.inr ⟨d, hd, he⟩)

theorem mem_children_of_case {enum : ClassRef} {directions : Directions} {tag : TagWidth}
    {cases : List (Target × List Codec)} {case : Target × List Codec} {c : Codec}
    (hcase : case ∈ cases) (hc : c ∈ case.2) :
    c ∈ (Codec.variants enum directions tag cases).children :=
  List.mem_flatMap.mpr ⟨case, hcase, hc⟩

theorem sizeOf_lt_of_mem_children {c d : Codec} (h : d ∈ c.children) : sizeOf d < sizeOf c := by
  cases c with
  -- the fields of variants lie two lists deep
  | variants enum directions tag cases =>
    obtain ⟨⟨target, fields⟩, hcase, hd⟩ := List.mem_flatMap.mp h
    have h1 := List.sizeOf_lt_of_mem hcase
    have h2 := List.sizeOf_lt_of_mem (show d ∈ fields from hd)
    simp only [Prod.mk.sizeOf_spec] at h1
    simp only [variants.sizeOf_spec]
    omega
  | tuple items =>
    have := List.sizeOf_lt_of_mem (show d ∈ items from h)
    simp only [tuple.sizeOf_spec]
    omega
  | struct target directions fields =>
    have := List.sizeOf_lt_of_mem (show d ∈ fields from h)
    simp only [struct.sizeOf_spec]
    omega
  | sequence _ item _ _ =>
    obtain rfl : d = item := by simpa [children] using h
    simp only [sequence.sizeOf_spec]
    omega
  | set _ member _ _ =>
    obtain rfl : d = member := by simpa [children] using h
    simp only [set.sizeOf_spec]
    omega
  | map key value _ _ =>
    have hd : d = key ∨ d = value := by simpa [children] using h
    simp only [map.sizeOf_spec]
    rcases hd with rfl | rfl <;> omega
  | optional item =>
    obtain rfl : d = item := by simpa [children] using h
    simp only [optional.sizeOf_spec]
    omega
  | varTuple item =>
    obtain rfl : d = item := by simpa [children] using h
    simp only [varTuple.sizeOf_spec]
    omega
  | _ => cases h

/-- **Induction over codecs**: what a codec inherits from those that it delegates to holds of all. -/
theorem induct {P : Codec → Prop} (h : ∀ c : Codec, (∀ d ∈ c.children, P d) → P c) (c : Codec) :
    P c :=
  h c fun d _ => induct h d
termination_by sizeOf c
decreasing_by exact sizeOf_lt_of_mem_children ‹_›

/-! ## Conditions -/

/-- Whether a node has values that are fit to be keys, as far as the node tells: numbers, texts, byte
strings, addresses, members with numbers, and tuples and records that are compared by all their items. -/
def isKeyNode : Codec → Bool
  | .int _ | .bool | .accountAddress | .contractAddress | .bytes .. | .text .. => true
  | .members _ _ _ _ cases => cases.all fun m => m.number.isSome
  | .sequence tuples .. => tuples
  | .tuple _ | .varTuple _ => true
  | .struct target _ fields =>
    target.cls.form == .positional || target.cls.form == .named true (some fields.length)
  | .unit target _ => target.cls.form == .positional || target.cls.form == .named true (some 0)
  | _ => false

/-- Whether values are fit to be keys, all the way down. -/
def isKey (c : Codec) : Bool := c.parts.all isKeyNode

/-- Whether the keys of a node, if it is a container that has some, are fit to be keys. -/
def keysFit : Codec → Bool
  | .set _ member .. => member.isKey
  | .map key .. => key.isKey
  | _ => true

/-- Whether the classes that a node builds instances of accept all values. -/
def buildsAll : Codec → Bool
  | .struct target .. | .unit target _ => target.rejection.isNone
  | .variants _ _ _ cases => cases.all fun case => case.1.rejection.isNone
  | _ => true

/-- A codec whose values can be written and read, with keys that are fit to be keys and with classes
that accept all values. -/
structure Regular (c : Codec) : Prop where
  writes : c.canWrite = true
  reads : c.canRead = true
  keys : ∀ d ∈ c.parts, d.keysFit = true
  builds : ∀ d ∈ c.parts, d.buildsAll = true

/-- What is true of every node that a declaration or an annotation leads to: tags are as wide as the
variants are many, a class has the same fields wherever it is a variant, members are told apart, and
the keys of containers are checked in some way. -/
def SoundNode : Codec → Prop
  | .variants _ _ tag cases =>
    TagWidth.forCount cases.length = .ok tag ∧
      ∀ a ∈ cases, ∀ b ∈ cases, a.1.cls.ref.id = b.1.cls.ref.id → a = b
  | .members enum _ _ tag cases =>
    TagWidth.forCount cases.length = .ok tag ∧
      cases.Pairwise fun a b => (a.value enum).beq (b.value enum) = false
  | .set _ _ _ order | .map _ _ _ order => order ≠ .unchecked
  | _ => True

/-- A codec that a declaration or an annotation leads to. -/
def Sound (c : Codec) : Prop := ∀ d ∈ c.parts, d.SoundNode

/-- Whether a node has one form for each value only: its keys have to ascend, no class is a variant
twice, and no absent value can be written in two ways. -/
def isCanonicalNode : Codec → Bool
  | .set _ _ _ order | .map _ _ _ order => order != .unique
  | .variants _ _ _ cases => (cases.map fun case => case.1.cls.ref.id).Nodup
  | .optional (.optional _) => false
  | _ => true

/-- Whether every value has one form only, all the way down. -/
def isCanonical (c : Codec) : Bool := c.parts.all isCanonicalNode

/-- What is below a part is below the codec. -/
theorem mem_parts_trans {c d e : Codec} (hd : d ∈ c.parts) (he : e ∈ d.parts) : e ∈ c.parts := by
  induction c using induct with
  | h c ih =>
    rcases mem_parts.mp hd with rfl | ⟨f, hf, hd⟩
    · exact he
    · exact mem_parts_of_child hf (ih f hf hd)

theorem isKeyNode_of_isKey {c : Codec} (h : c.isKey = true) : c.isKeyNode = true :=
  List.all_eq_true.mp h c (self_mem_parts c)

theorem isKey_of_child {c d : Codec} (h : c.isKey = true) (hd : d ∈ c.children) : d.isKey = true :=
  List.all_eq_true.mpr fun e he => List.all_eq_true.mp h e (mem_parts_of_child hd he)

theorem Sound.node {c : Codec} (h : c.Sound) : c.SoundNode := h c (self_mem_parts c)

theorem Sound.child {c d : Codec} (h : c.Sound) (hd : d ∈ c.children) : d.Sound :=
  fun e he => h e (mem_parts_of_child hd he)

/-- A codec comes from a declaration when its node does and all that it delegates to does. -/
theorem sound_of_children {c : Codec} (hnode : c.SoundNode) (h : ∀ d ∈ c.children, d.Sound) :
    c.Sound := by
  intro e he
  rcases mem_parts.mp he with rfl | ⟨d, hd, he⟩
  · exact hnode
  · exact h d hd e he

theorem isCanonicalNode_of_isCanonical {c : Codec} (h : c.isCanonical = true) :
    c.isCanonicalNode = true :=
  List.all_eq_true.mp h c (self_mem_parts c)

theorem isCanonical_of_child {c d : Codec} (h : c.isCanonical = true) (hd : d ∈ c.children) :
    d.isCanonical = true :=
  List.all_eq_true.mpr fun e he => List.all_eq_true.mp h e (mem_parts_of_child hd he)

/-! ## Directions -/

section Directions

variable {direction : Directions → Bool}

theorem canAll_iff : ∀ {cs : List Codec},
    canAll direction cs = true ↔ ∀ c ∈ cs, c.can direction = true
  | [] => by simp [canAll]
  | c :: cs => by simp [canAll, canAll_iff]

theorem canCases_iff : ∀ {cases : List (Target × List Codec)},
    canCases direction cases = true ↔ ∀ c ∈ cases.flatMap (·.2), c.can direction = true
  | [] => by simp [canCases]
  | (_, fields) :: rest => by
    rw [canCases, Bool.and_eq_true, canAll_iff, canCases_iff, List.flatMap_cons]
    simp only [List.mem_append]
    exact ⟨fun ⟨h, h'⟩ c hc => hc.elim (h c) (h' c), fun h => ⟨fun c hc => h c (Or.inl hc),
      fun c hc => h c (Or.inr hc)⟩⟩

/-- Whether the class of a node, if it is one of a class, derives a direction. -/
def derives (direction : Directions → Bool) : Codec → Bool
  | .struct _ directions _ | .unit _ directions | .variants _ directions _ _
  | .members _ _ directions _ _ => direction directions
  | _ => true

/-- A codec can be used in a direction if its class derives it and those that it delegates to can. -/
theorem can_iff_children {c : Codec} :
    c.can direction = true ↔
      c.derives direction = true ∧ ∀ d ∈ c.children, d.can direction = true := by
  cases c with
  | variants enum directions tag cases =>
    rw [can, Bool.and_eq_true, canCases_iff]
    rfl
  | struct target directions fields =>
    rw [can, Bool.and_eq_true, canAll_iff]
    rfl
  | tuple items => simp only [can, canAll_iff, derives, children, true_and]
  | _ => simp [can, derives, children]

theorem can_of_child {c d : Codec} (h : c.can direction = true) (hd : d ∈ c.children) :
    d.can direction = true :=
  (can_iff_children.mp h).2 d hd

/-- **A codec can be used in a direction exactly when every class in it derives that**, however deep
the class lies. -/
theorem can_iff_parts {c : Codec} :
    c.can direction = true ↔ ∀ d ∈ c.parts, d.derives direction = true := by
  induction c using induct with
  | h c ih =>
    rw [can_iff_children, parts_eq, List.forall_mem_cons, List.forall_mem_flatMap]
    exact and_congr_right fun _ => forall₂_congr ih

/-- Where all that a codec delegates to can be used, what its class derives decides. -/
theorem can_eq_of_children {c : Codec} {b : Bool} (hnode : c.derives direction = b)
    (h : b = true → ∀ d ∈ c.children, d.can direction = true) : c.can direction = b := by
  rw [Bool.eq_iff_iff, can_iff_children, hnode]
  exact ⟨And.left, fun hb => ⟨hb, h hb⟩⟩

/-- Whether a codec can be used in each of the given directions. -/
def Serves (directions : Directions) (c : Codec) : Prop :=
  (directions.writes = true → c.canWrite = true) ∧ (directions.reads = true → c.canRead = true)

end Directions

/-- The conditions hold of the codecs that a codec delegates to. -/
theorem Regular.child {c d : Codec} (h : c.Regular) (hd : d ∈ c.children) : d.Regular :=
  ⟨can_of_child h.writes hd, can_of_child h.reads hd,
    fun e he => h.keys e (mem_parts_of_child hd he),
    fun e he => h.builds e (mem_parts_of_child hd he)⟩

/-! ## Refusing equal keys -/

mutual

/-- The codec with every container that resolves equal keys turned into one that refuses them. -/
def strict : Codec → Codec
  | .sequence tuples item width order => .sequence tuples (strict item) width order
  | .set frozen member width order => .set frozen (strict member) width order.strict
  | .map key value width order => .map (strict key) (strict value) width order.strict
  | .optional item => .optional (strict item)
  | .tuple items => .tuple (strictAll items)
  | .varTuple item => .varTuple (strict item)
  | .struct target directions fields => .struct target directions (strictAll fields)
  | .variants enum directions tag cases => .variants enum directions tag (strictCases cases)
  | .int format => .int format
  | .bool => .bool
  | .accountAddress => .accountAddress
  | .contractAddress => .contractAddress
  | .bytes width order => .bytes width order
  | .text width order => .text width order
  | .unit target directions => .unit target directions
  | .members enum hashable directions tag cases => .members enum hashable directions tag cases

/-- The same for the codecs of a list. -/
def strictAll : List Codec → List Codec
  | [] => []
  | c :: cs => strict c :: strictAll cs

/-- The same for the codecs of the fields of variants. -/
def strictCases : List (Target × List Codec) → List (Target × List Codec)
  | [] => []
  | (target, fields) :: rest => (target, strictAll fields) :: strictCases rest

end

theorem strictCases_eq : ∀ cases : List (Target × List Codec),
    strictCases cases = cases.map fun case => (case.1, strictAll case.2)
  | [] => rfl
  | (target, fields) :: rest => by rw [strictCases, strictCases_eq rest, List.map_cons]

end Codec

end ContractKit
