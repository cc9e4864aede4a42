import ContractKit.Proofs.Codec.Parts
import ContractKit.Proofs.Value.KeyOrder
import ContractKit.Proofs.Value.Same

/-!
# `Proofs/Codec/Exact.lean`: the values of exactly the type of a codec

A codec accepts more than the values of its type: a member of an integer enumeration where a number is
expected, an instance of an extending class, a record where a tuple is. Reading gives none of those
back, so a round trip is a statement about the values that `Exact` describes: the declared class at
every node, as many items as are declared, and members where members are expected.

Among such values the keys of a codec fit for keys form a key space (`keySpace_exact`): they have one
strict order, and those that are equal are identical.
-/

set_option autoImplicit false

namespace ContractKit.Codec

open Value (Same SameAll KeySpace At)

mutual

/-- The values of exactly the type of a codec. -/
def Exact : Codec → Value → Prop
  | .int _, v => ∃ n, v = .int n
  | .bool, v => ∃ b, v = .bool b
  | .accountAddress, v => ∃ data, v = .bytes data
  | .contractAddress, v => ∃ index subindex, v = .contractAddress index subindex
  | .bytes .., v => ∃ data, v = .bytes data
  | .text .., v => ∃ s, v = .text s
  | .sequence tuples item .., v =>
    ∃ vs, v = (if tuples then .tuple vs else .list vs) ∧ ∀ x ∈ vs, Exact item x
  | .set frozen member .., v =>
    ∃ vs, v = (if frozen then .frozenset vs else .set vs) ∧ (∀ x ∈ vs, Exact member x) ∧
      vs.Pairwise fun a b => a.beq b = false
  | .map key value .., v =>
    ∃ es, v = .dict es ∧ (∀ e ∈ es, Exact key e.1 ∧ Exact value e.2) ∧
      es.Pairwise fun a b => a.1.beq b.1 = false
  | .optional item, v => v = .none ∨ Exact item v
  | .tuple items, v => ∃ vs, v = .tuple vs ∧ ExactEach items vs
  | .varTuple item, v => ∃ vs, v = .tuple vs ∧ ∀ x ∈ vs, Exact item x
  | .struct target _ fields, v => ∃ vs, v = .record target.cls vs ∧ ExactEach fields vs
  | .unit target _, v => v = .record target.cls []
  | .variants _ _ _ cases, v => ExactCase cases v
  | .members enum _ _ _ cases, v => ∃ m ∈ cases, v = m.value enum

/-- As many values as there are codecs, each of exactly the type of its codec. -/
def ExactEach : List Codec → List Value → Prop
  | [], vs => vs = []
  | c :: cs, vs => ∃ x xs, vs = x :: xs ∧ Exact c x ∧ ExactEach cs xs

/-- The instances of exactly the class of a variant. -/
def ExactCase : List (Target × List Codec) → Value → Prop
  | [], _ => False
  | (target, fields) :: rest, v =>
    (∃ vs, v = .record target.cls vs ∧ ExactEach fields vs) ∨ ExactCase rest v

end

theorem exactEach_iff : ∀ {cs : List Codec} {vs : List Value},
    ExactEach cs vs ↔ List.Forall₂ Exact cs vs
  | [], vs => by rw [ExactEach, List.forall₂_nil_left_iff]
  | c :: cs, vs => by
    rw [ExactEach, List.forall₂_cons_left_iff]
    constructor
    · rintro ⟨x, xs, rfl, hx, hxs⟩
      exact ⟨x, xs, hx, exactEach_iff.mp hxs, rfl⟩
    · rintro ⟨x, xs, hx, hxs, rfl⟩
      exact ⟨x, xs, rfl, hx, exactEach_iff.mpr hxs⟩

theorem exactCase_iff : ∀ {cases : List (Target × List Codec)} {v : Value},
    ExactCase cases v ↔
      ∃ case ∈ cases, ∃ vs, v = .record case.1.cls vs ∧ List.Forall₂ Exact case.2 vs
  | [], v => by simp [ExactCase]
  | (target, fields) :: rest, v => by
    rw [ExactCase, exactCase_iff, exactEach_eq]
    simp only [List.mem_cons, exists_eq_or_imp]
where
  exactEach_eq {fields : List Codec} {target : Target} {v : Value} :
      (∃ vs, v = .record target.cls vs ∧ ExactEach fields vs) ↔
        ∃ vs, v = .record target.cls vs ∧ List.Forall₂ Exact fields vs := by
    simp only [exactEach_iff]

/-- Each of the values is exact for one of the codecs. -/
theorem exists_of_exactEach : ∀ {cs : List Codec} {vs : List Value}, ExactEach cs vs →
    ∀ x ∈ vs, ∃ c ∈ cs, c.Exact x
  | [], _, h, x, hx => by
    rw [show _ = [] from h] at hx
    cases hx
  | c :: cs, _, ⟨y, ys, hvs, hy, hys⟩, x, hx => by
    rw [hvs] at hx
    rcases List.mem_cons.mp hx with rfl | hx
    · exact ⟨c, by simp, hy⟩
    · obtain ⟨d, hd, hx⟩ := exists_of_exactEach hys x hx
      exact ⟨d, by simp [hd], hx⟩

/-! ## The same value, for exact values -/

/-- Where no sets and maps are, the same value is the identical one. -/
theorem eq_of_same {c : Codec} (hkey : c.isKey = true) :
    ∀ {v w : Value}, c.Exact v → Same v w → w = v := by
  induction c using induct with
  | h c ih =>
    have hitem : ∀ {vs : List Value}, (∀ x ∈ vs, ∃ d ∈ c.children, d.Exact x) →
        ∀ x ∈ vs, ∀ y, Same x y → y = x := by
      intro vs hvs x hx y hxy
      obtain ⟨d, hd, hdx⟩ := hvs x hx
      exact ih d hd (isKey_of_child hkey hd) hdx hxy
    have hnode := isKeyNode_of_isKey hkey
    intro v w hv h
    cases c with
    | int _ | bool | accountAddress | bytes _ _ | text _ _ =>
      obtain ⟨x, rfl⟩ := hv
      simpa [Same] using h
    | contractAddress =>
      obtain ⟨i, j, rfl⟩ := hv
      simpa [Value.contractAddress, Same, SameAll] using h
    | sequence tuples item _ _ =>
      obtain rfl : tuples = true := hnode
      obtain ⟨vs, rfl, hvs⟩ := hv
      obtain ⟨ws, rfl, hws⟩ := h
      rw [hws.eq (hitem fun x hx => ⟨item, by simp [children], hvs x hx⟩)]
      rfl
    | varTuple item =>
      obtain ⟨vs, rfl, hvs⟩ := hv
      obtain ⟨ws, rfl, hws⟩ := h
      rw [hws.eq (hitem fun x hx => ⟨item, by simp [children], hvs x hx⟩)]
    | tuple _ | struct _ _ _ =>
      obtain ⟨vs, rfl, hvs⟩ := hv
      obtain ⟨ws, rfl, hws⟩ := h
      rw [hws.eq (hitem (exists_of_exactEach hvs))]
    | unit target _ =>
      obtain rfl : v = _ := hv
      obtain ⟨ws, rfl, hws⟩ := h
      rw [show ws = [] from hws]
    | members enum _ _ _ cases =>
      obtain ⟨m, -, rfl⟩ := hv
      simpa [Member.value, Same] using h
    | set _ _ _ _ | map _ _ _ _ | optional _ | variants _ _ _ _ => cases hnode

/-- The same value as an exact one of the codec is an equal one. -/
def EqualIfSame (c : Codec) : Prop := ∀ ⦃v w : Value⦄, c.Exact v → Same v w → v.beq w = true

section Containers

variable {tuples frozen : Bool} {item member key value : Codec} {cs : List Codec}
  {width : PrefixWidth} {order : OrderPolicy} {vs ws : List Value}

theorem EqualIfSame.beqAll (hitem : item.EqualIfSame) (hvs : ∀ x ∈ vs, item.Exact x)
    (h : SameAll vs ws) : Value.beqAll vs ws = true :=
  Value.beqAll_of_sameAll (fun x hx _ hxy => hitem (hvs x hx) hxy) h

theorem beqAll_of_exactEach (hcs : ∀ c ∈ cs, c.EqualIfSame) (hvs : ExactEach cs vs)
    (h : SameAll vs ws) : Value.beqAll vs ws = true := by
  refine Value.beqAll_of_sameAll (fun x hx y hxy => ?_) h
  obtain ⟨c, hc, hexact⟩ := exists_of_exactEach hvs x hx
  exact hcs c hc hexact hxy

theorem equalIfSame_contractAddress : Codec.contractAddress.EqualIfSame := by
  rintro v w ⟨i, j, rfl⟩ ⟨ws, rfl, hws⟩
  rw [Value.contractAddress, Value.beq_record]
  refine Value.beqAll_of_sameAll (fun x hx y hxy => ?_) hws
  have hx : x = .int i ∨ x = .int j := by simpa using hx
  rcases hx with rfl | rfl <;>
  · obtain rfl : y = _ := by simpa [Same] using hxy
    simp [Value.beq, Value.number?]

theorem equalIfSame_sequence (hitem : item.EqualIfSame) :
    (Codec.sequence tuples item width order).EqualIfSame := by
  rintro v w ⟨vs, rfl, hvs⟩ h
  cases tuples with
  | true =>
    obtain ⟨ws, rfl, hws⟩ := h
    show (Value.tuple vs).beq (.tuple ws) = true
    rw [Value.beq]
    exact hitem.beqAll hvs hws
  | false =>
    obtain ⟨ws, rfl, hws⟩ := h
    show (Value.list vs).beq (.list ws) = true
    rw [Value.beq]
    exact hitem.beqAll hvs hws

theorem equalIfSame_varTuple (hitem : item.EqualIfSame) : (Codec.varTuple item).EqualIfSame := by
  rintro v w ⟨vs, rfl, hvs⟩ ⟨ws, rfl, hws⟩
  rw [Value.beq]
  exact hitem.beqAll hvs hws

theorem equalIfSame_set (hmember : member.EqualIfSame) :
    (Codec.set frozen member width order).EqualIfSame := by
  rintro v w ⟨vs, rfl, hvs, -⟩ h
  have hmembers : ∀ x ∈ vs, ∀ y, Same x y → x.beq y = true := fun x hx _ => hmember (hvs x hx)
  cases frozen with
  | true =>
    obtain ⟨ws, zs, rfl, hws, hperm⟩ := h
    show (Value.frozenset vs).beq (.frozenset zs) = true
    rw [Value.beq]
    exact Value.sets_beq_of_same hmembers hws hperm
  | false =>
    obtain ⟨ws, zs, rfl, hws, hperm⟩ := h
    show (Value.set vs).beq (.set zs) = true
    rw [Value.beq]
    exact Value.sets_beq_of_same hmembers hws hperm

theorem equalIfSame_map (hkey : key.EqualIfSame) (hvalue : value.EqualIfSame) :
    (Codec.map key value width order).EqualIfSame := by
  rintro v w ⟨es, rfl, hes, -⟩ ⟨fs, gs, rfl, hfs, hperm⟩
  rw [Value.beq]
  exact Value.maps_beq_of_same
    (fun e he => ⟨fun _ hy => hkey (hes e he).1 hy, fun _ hy => hvalue (hes e he).2 hy⟩) hfs hperm

theorem equalIfSame_optional (hitem : item.EqualIfSame) : (Codec.optional item).EqualIfSame := by
  rintro v w (rfl | hv) h
  · obtain rfl : w = _ := by simpa [Same] using h
    rw [Value.beq]
  · exact hitem hv h

section Classes

variable {target : Target} {enum : ClassRef} {directions : Directions} {tag : TagWidth}

theorem equalIfSame_struct (hfields : ∀ c ∈ cs, c.EqualIfSame) :
    (Codec.struct target directions cs).EqualIfSame := by
  rintro v w ⟨vs, rfl, hvs⟩ ⟨ws, rfl, hws⟩
  rw [Value.beq_record]
  exact beqAll_of_exactEach hfields hvs hws

theorem equalIfSame_variants {cases : List (Target × List Codec)}
    (hfields : ∀ case ∈ cases, ∀ c ∈ case.2, c.EqualIfSame) :
    (Codec.variants enum directions tag cases).EqualIfSame := by
  intro v w hv h
  obtain ⟨case, hcase, vs, rfl, hvs⟩ := exactCase_iff.mp hv
  obtain ⟨ws, rfl, hws⟩ := h
  rw [Value.beq_record]
  exact beqAll_of_exactEach (hfields case hcase) (exactEach_iff.mpr hvs) hws

theorem equalIfSame_members {hashable : Bool} {cases : List Member} :
    (Codec.members enum hashable directions tag cases).EqualIfSame := by
  rintro v w ⟨⟨name, number⟩, -, rfl⟩ h
  obtain rfl : w = _ := by simpa [Member.value, Same] using h
  cases number with
  | none => simp [Member.value, Value.beq]
  | some n => simp [Member.value, Value.beq, Value.number?]

end Classes

end Containers

/-- The same value is an equal one. -/
theorem beq_of_same {c : Codec} : ∀ {v w : Value}, c.Exact v → Same v w → v.beq w = true := by
  induction c using induct with
  | h c ih =>
    have ih' : ∀ d ∈ c.children, d.EqualIfSame := fun d hd _ _ => ih d hd
    intro v w hv h
    cases c with
    | int _ | bool | accountAddress | bytes _ _ | text _ _ =>
      obtain ⟨x, rfl⟩ := hv
      obtain rfl : w = _ := by simpa [Same] using h
      simp [Value.beq, Value.number?]
    | contractAddress => exact equalIfSame_contractAddress hv h
    | sequence tuples item _ _ => exact equalIfSame_sequence (ih' item (by simp [children])) hv h
    | varTuple item => exact equalIfSame_varTuple (ih' item (by simp [children])) hv h
    | set frozen member _ _ => exact equalIfSame_set (ih' member (by simp [children])) hv h
    | map key value _ _ =>
      exact equalIfSame_map (ih' key (by simp [children])) (ih' value (by simp [children])) hv h
    | optional item => exact equalIfSame_optional (ih' item (by simp [children])) hv h
    | tuple _ =>
      obtain ⟨vs, rfl, hvs⟩ := hv
      obtain ⟨ws, rfl, hws⟩ := h
      rw [Value.beq]
      exact beqAll_of_exactEach ih' hvs hws
    | struct _ _ _ => exact equalIfSame_struct ih' hv h
    | unit target _ =>
      obtain rfl : v = _ := hv
      obtain ⟨ws, rfl, hws⟩ := h
      rw [show ws = [] from hws, Value.beq_record, Value.beqAll]
    | variants _ _ _ cases =>
      exact equalIfSame_variants (fun _ hcase d hd => ih' d (mem_children_of_case hcase hd)) hv h
    | members enum _ _ _ cases => exact equalIfSame_members hv h

/-! ## Keys -/

/-- The values at a place among the fields. -/
def ExactAt (cs : List Codec) (i : Nat) (v : Value) : Prop :=
  match cs[i]? with
  | some c => c.Exact v
  | none => ∃ n, v = .int n

theorem at_of_exactEach : ∀ {cs : List Codec} {vs : List Value}, ExactEach cs vs → At (ExactAt cs) vs
  | [], _, h => by
    rw [show _ = [] from h]
    trivial
  | c :: cs, _, ⟨x, xs, hvs, hx, hxs⟩ => by
    rw [hvs]
    exact ⟨hx, at_of_exactEach hxs⟩

theorem at_of_forall {c : Codec} : ∀ {vs : List Value}, (∀ x ∈ vs, c.Exact x) →
    At (fun _ => c.Exact) vs
  | [], _ => trivial
  | x :: xs, h => ⟨h x (by simp), at_of_forall fun y hy => h y (by simp [hy])⟩

theorem keySpace_exactAt {cs : List Codec} (h : ∀ c ∈ cs, KeySpace c.Exact) (i : Nat) :
    KeySpace (ExactAt cs i) := by
  unfold ExactAt
  cases hc : cs[i]? with
  | none => exact KeySpace.int
  | some c => exact h c (List.mem_of_getElem? hc)

/-- Things of a list that is free of repetitions are one when they repeat each other. -/
theorem eq_of_pairwise_false {α : Type} {r : α → α → Bool} {as : List α}
    (h : as.Pairwise fun a b => r a b = false) {a b : α} (ha : a ∈ as) (hb : b ∈ as)
    (hab : r a b = true) (hba : r b a = true) : a = b := by
  obtain ⟨i, hi, rfl⟩ := List.mem_iff_getElem.mp ha
  obtain ⟨j, hj, rfl⟩ := List.mem_iff_getElem.mp hb
  rw [List.pairwise_iff_getElem] at h
  rcases Nat.lt_trichotomy i j with hij | rfl | hij
  · rw [h i j hi hj hij] at hab
    cases hab
  · rfl
  · rw [h j i hj hi hij] at hba
    cases hba

theorem length_of_exactEach {cs : List Codec} {vs : List Value} (h : ExactEach cs vs) :
    vs.length = cs.length := (exactEach_iff.mp h).length_eq.symm

/-- The two parts of an address are numbers, compared as those of a tuple are. -/
theorem keySpace_contractAddress : KeySpace Codec.contractAddress.Exact := by
  have h : KeySpace fun v => ∃ xs, v = .record .contractAddress xs ∧
      ∃ i j : Int, xs = [.int i, .int j] := by
    refine KeySpace.of_records (fun _ => KeySpace.int) ?_ (Or.inl rfl) (n := 2) ?_
    · rintro _ ⟨i, j, rfl⟩
      exact ⟨⟨i, rfl⟩, ⟨j, rfl⟩, trivial⟩
    · rintro _ ⟨i, j, rfl⟩
      rfl
  apply h.mono
  rintro v ⟨i, j, rfl⟩
  exact ⟨_, rfl, i, j, rfl⟩

/-- A class without fields has one value, which is a record of no parts. -/
theorem keySpace_unit {target : Target} {directions : Directions}
    (hform : target.cls.form = .positional ∨ target.cls.form = .named true (some 0)) :
    KeySpace (Codec.unit target directions).Exact := by
  have h : KeySpace fun v => ∃ xs, v = .record target.cls xs ∧ xs = [] := by
    refine KeySpace.of_records (fun _ => KeySpace.int) ?_ hform ?_
    · rintro _ rfl
      trivial
    · rintro _ rfl
      rfl
  apply h.mono
  rintro v rfl
  exact ⟨[], rfl, rfl⟩

/-- Members are ordered by their numbers, which tell them apart as no two of them are equal. -/
theorem keySpace_members {enum : ClassRef} {hashable : Bool} {directions : Directions}
    {tag : TagWidth} {cases : List Member}
    (hdistinct : cases.Pairwise fun a b => (a.value enum).beq (b.value enum) = false)
    (hnumbers : ∀ m ∈ cases, ∃ n, m.number = some n) :
    KeySpace (Codec.members enum hashable directions tag cases).Exact := by
  refine KeySpace.of_numbers ?_ ?_
  · rintro a ⟨m, hm, rfl⟩
    exact hnumbers m hm
  · rintro a b ⟨m, hm, rfl⟩ ⟨m', hm', rfl⟩ h
    obtain ⟨n, hn⟩ : ∃ n, (m.value enum).number? = some n := hnumbers m hm
    have hn' : (m'.value enum).number? = some n := h ▸ hn
    rw [eq_of_pairwise_false hdistinct hm hm' ((Value.beq_of_number? hn hn').mpr rfl)
      ((Value.beq_of_number? hn' hn).mpr rfl)]

/-- **The exact values of a codec that is fit for keys are fit to be keys together.** This is where
being fit for keys all the way down is used: what tuples and records are compared by is their parts. -/
theorem keySpace_exact {c : Codec} (hkey : c.isKey = true) (hsound : c.Sound) :
    KeySpace c.Exact := by
  induction c using induct with
  | h c ih =>
    have ih' : ∀ d ∈ c.children, KeySpace d.Exact := fun d hd =>
      ih d hd (isKey_of_child hkey hd) (hsound.child hd)
    have hnode := isKeyNode_of_isKey hkey
    cases c with
    | int _ => exact KeySpace.int
    | bool => exact KeySpace.bool
    | accountAddress | bytes _ _ => exact KeySpace.bytes
    | text _ _ => exact KeySpace.text
    | contractAddress => exact keySpace_contractAddress
    | sequence tuples item _ _ =>
      obtain rfl : tuples = true := hnode
      exact KeySpace.of_tuples (fun _ => ih' item (by simp [children])) at_of_forall
    | varTuple item =>
      exact KeySpace.of_tuples (fun _ => ih' item (by simp [children])) at_of_forall
    | tuple items => exact KeySpace.of_tuples (keySpace_exactAt ih') at_of_exactEach
    | struct target _ fields =>
      have hform : target.cls.form = .positional ∨
          target.cls.form = .named true (some fields.length) := by
        simpa [isKeyNode] using hnode
      exact KeySpace.of_records (keySpace_exactAt ih') at_of_exactEach hform length_of_exactEach
    | unit _ _ => exact keySpace_unit (by simpa [isKeyNode] using hnode)
    | members _ _ _ _ _ =>
      exact keySpace_members hsound.node.2 fun m hm =>
        Option.isSome_iff_exists.mp (List.all_eq_true.mp hnode m hm)
    | set _ _ _ _ | map _ _ _ _ | optional _ | variants _ _ _ _ => cases hnode

end ContractKit.Codec
