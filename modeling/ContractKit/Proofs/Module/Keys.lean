import ContractKit.Proofs.Codec.Keys
import ContractKit.Proofs.Codec.Normal
import ContractKit.Proofs.Module.Format

/-!
# `Proofs/Module/Keys.lean`: the keys of sets and maps

Sets and maps are written in the order of their keys, whatever order they hold them in, so what is
written depends on the value alone (`encode_same`). That takes keys which have an order, and the types
that are fit for keys are those which give them one (`ranked_keys`): all of them do, and of the others
only such do as have too few values to tell.

An annotation asks for less. The types of keys that it lets pass are those whose outermost class is
hashable, and that says nothing about what their values hold, nor whether these have an order
(`unranked_keys`).
-/

set_option autoImplicit false

namespace ContractKit.Module

open Value (Same Differ Ranked)

variable {settings : LoadedSettings} {decls : List Source.Decl} {chars : Text.CharNames}
  {m : Module} {t : Ty} {c : Codec}

/-! ## The order in which they are held -/

/-- **Values that differ only in the order of what their sets and maps hold are written alike**, and if
one cannot be written, the other fails with the same fault. -/
theorem encode_same (hm : ofDecls settings decls chars = .ok m) (hc : Codec.ofType m.facts t = .ok c)
    (hkeys : ∀ d ∈ c.parts, d.keysFit = true) {v w : Value} (hv : c.Exact v) (h : Same v w) :
    c.encode v = c.encode w := by
  have hemit := Codec.writesSame (sound_of_ofType hm hc) hkeys hv h
  rw [Codec.encode, Codec.encode, hemit]

section Shelves

/-- Maps from numbers to sets of numbers. -/
def shelfType : Ty := .dict (.sized .u8) (.set (.sized .u8))

def shelfCodec : Codec :=
  .map (.int ⟨1, false⟩) (.set false (.int ⟨1, false⟩) .standard .strictlyIncreasing)
    .standard .strictlyIncreasing

def shelves : Value := .dict [(.int 2, .set [.int 7, .int 5]), (.int 1, .set [])]

/-- The same shelves put up in another order, and one of them filled in another order. -/
def shelves' : Value := .dict [(.int 1, .set []), (.int 2, .set [.int 5, .int 7])]

theorem exists_shelfModule : ∃ m, ofDecls (.ok {}) [] = .ok m ∧
    Codec.ofType m.facts shelfType = .ok shelfCodec :=
  ⟨_, rfl, rfl⟩

theorem exact_shelves : shelfCodec.Exact shelves := by
  refine ⟨_, rfl, fun e he => ?_, by simp [Value.beq, Value.number?]⟩
  rcases List.mem_pair.mp he with rfl | rfl
  · refine ⟨⟨_, rfl⟩, _, rfl, fun x hx => ?_, by simp [Value.beq, Value.number?]⟩
    rcases List.mem_pair.mp hx with rfl | rfl
    · exact ⟨_, rfl⟩
    · exact ⟨_, rfl⟩
  · exact ⟨⟨_, rfl⟩, [], rfl, by simp, .nil⟩

theorem same_shelves : Same shelves shelves' := by
  have hfull : Same (.set [.int 7, .int 5]) (.set [.int 5, .int 7]) :=
    ⟨_, _, rfl, Value.SameAll.refl _, .swap _ _ _⟩
  refine ⟨[(.int 2, .set [.int 5, .int 7]), (.int 1, .set [])], _, rfl, ?_, .swap _ _ _⟩
  apply Value.sameEntries_iff.mpr
  exact .cons ⟨Value.Same.refl _, hfull⟩ (.cons ⟨Value.Same.refl _, Value.Same.refl _⟩ .nil)

theorem encode_same_shelves : ∃ m, ofDecls (.ok {}) [] = .ok m ∧
    Codec.ofType m.facts shelfType = .ok shelfCodec ∧
    (∀ d ∈ shelfCodec.parts, d.keysFit = true) ∧ shelfCodec.Exact shelves ∧ Same shelves shelves' ∧
    shelfCodec.encode shelves = shelfCodec.encode shelves' := by
  obtain ⟨m, hm, hc⟩ := exists_shelfModule
  have hkeys : ∀ d ∈ shelfCodec.parts, d.keysFit = true := by decide
  exact ⟨m, hm, hc, hkeys, exact_shelves, same_shelves,
    encode_same hm hc hkeys exact_shelves same_shelves⟩

end Shelves

/-! ## The types that can be keys -/

/-- **The types that are fit for keys are the types of keys.** Of any two different values of such a type
both can be hashed and one is less than the other. Types that are not fit have two values of which that
is not true, if every part of them has two different values. -/
theorem ranked_keys (hm : ofDecls settings decls chars = .ok m) (hc : Codec.ofType m.facts t = .ok c) :
    (c.isKey = true → ∀ a b, c.Admits a → c.Admits b → a.beq b = false → Ranked a b) ∧
      (c.Telling → c.RanksKeys → c.isKey = true) := by
  have hsound := sound_of_ofType hm hc
  constructor
  · intro hkey a b ha hb hne
    exact Codec.ranked_of_isKey hkey hsound ha hb hne
  · exact Codec.isKey_of_ranksKeys hsound

section Points

/-- The codec of points. -/
def pointCodec : Codec := .struct ⟨point, none⟩ ⟨true, true⟩ [.int ⟨2, false⟩, .bool]

theorem admits_point {n : Int} (hn : (⟨2, false⟩ : LittleEndian.Format).Holds n) (seen : Bool) :
    pointCodec.Admits (.record point [.int n, .bool seen]) := by
  show pointCodec.Admits (.record (Target.mk point none).cls _)
  apply Codec.admits_struct
  exact .cons ⟨⟨n, rfl⟩, Codec.accepts_int.mpr hn⟩ (.cons ⟨⟨seen, rfl⟩, rfl⟩ .nil)

theorem telling_pointCodec : pointCodec.Telling := by
  refine ⟨fun d hd => ?_, by decide, by decide⟩
  have hd : d = pointCodec ∨ d = .int ⟨2, false⟩ ∨ d = .bool := by
    simpa [pointCodec, Codec.parts, Codec.partsOfAll] using hd
  rcases hd with rfl | rfl | rfl
  · refine ⟨_, _, admits_point (n := 1) (by decide) true, admits_point (n := 2) (by decide) true, ?_⟩
    simp [Differ, Value.beq, Value.beqAll, Value.number?, RecordClass.isPositional, point]
  · refine ⟨.int 1, .int 2, ⟨⟨1, rfl⟩, rfl⟩, ⟨⟨2, rfl⟩, rfl⟩, ?_⟩
    simp [Differ, Value.beq, Value.number?]
  · refine ⟨.bool true, .bool false, ⟨⟨true, rfl⟩, rfl⟩, ⟨⟨false, rfl⟩, rfl⟩, ?_⟩
    simp [Differ, Value.beq, Value.number?]

theorem ranked_keys_points : ∃ m, ofDecls (.ok {}) pointDecls = .ok m ∧
    Codec.ofType m.facts (.cls point.ref) = .ok pointCodec ∧ pointCodec.Telling ∧
    pointCodec.isKey = true ∧
    (∀ a b, pointCodec.Admits a → pointCodec.Admits b → a.beq b = false → Ranked a b) ∧
    (pointCodec.RanksKeys → pointCodec.isKey = true) := by
  have hpoint : ∃ m, ofDecls (.ok {}) pointDecls = .ok m ∧
      Codec.ofType m.facts (.cls point.ref) = .ok pointCodec := ⟨_, rfl, rfl⟩
  obtain ⟨m, hm, hc⟩ := hpoint
  exact ⟨m, hm, hc, telling_pointCodec, rfl, (ranked_keys hm hc).1 rfl,
    (ranked_keys hm hc).2 telling_pointCodec⟩

end Points

/-- The codec of tuples of one list. -/
def holderCodec : Codec := .tuple [.sequence false (.int ⟨1, false⟩) .standard .unchecked]

/-- **Types that are not fit for keys pass for them.** A tuple may hold a list, and then it cannot be
hashed when it is read; a number that may be absent has no order, and then no set of two can be written. -/
theorem unranked_keys : ∃ m, ofDecls (.ok {}) [] = .ok m ∧
    (Codec.ofType m.facts (.set (.tuple [.list (.sized .u8)])) =
        .ok (.set false holderCodec .standard .strictlyIncreasing) ∧
      holderCodec.Admits (.tuple [.list [.int 5]]) ∧ holderCodec.Admits (.tuple [.list []]) ∧
      Differ (.tuple [.list [.int 5]]) (.tuple [.list []]) ∧
      ¬ Ranked (.tuple [.list [.int 5]]) (.tuple [.list []]) ∧
      (Codec.set false holderCodec .standard .strictlyIncreasing).decode [1, 0, 0, 0, 1, 0, 0, 0, 5] =
        .error .unhashable) ∧
    (Codec.ofType m.facts (.set (.optional (.sized .u8))) =
        .ok (.set false (.optional (.int ⟨1, false⟩)) .standard .strictlyIncreasing) ∧
      (Codec.optional (.int ⟨1, false⟩)).Admits .none ∧
      (Codec.optional (.int ⟨1, false⟩)).Admits (.int 5) ∧
      Differ .none (.int 5) ∧ ¬ Ranked .none (.int 5) ∧
      (Codec.set false (.optional (.int ⟨1, false⟩)) .standard .strictlyIncreasing).check
        (.set [.none, .int 5]) = .ok () ∧
      (Codec.set false (.optional (.int ⟨1, false⟩)) .standard .strictlyIncreasing).encode
        (.set [.none, .int 5]) = .error .unordered) := by
  have hlists : ∀ vs : List Value, (∀ x ∈ vs, (Codec.int ⟨1, false⟩).Admits x) →
      holderCodec.Admits (.tuple [.list vs]) := fun vs hvs =>
    Codec.admits_tuple (.cons (Codec.admits_sequence hvs) .nil)
  refine ⟨_, rfl, ⟨rfl, hlists _ ?_, hlists _ (by simp), ?_, ?_, rfl⟩,
    rfl, ⟨Or.inl rfl, rfl⟩, ⟨Or.inr ⟨5, rfl⟩, rfl⟩, ?_, Value.not_ranked_of_none rfl, rfl, rfl⟩
  · intro x hx
    rw [List.mem_singleton.mp hx]
    exact ⟨⟨5, rfl⟩, rfl⟩
  · simp [Differ, Value.beq, Value.beqAll, Value.tupleItems?]
  · intro h
    cases h.1
  · simp [Differ, Value.beq, Value.number?]

end ContractKit.Module
