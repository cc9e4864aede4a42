import ContractKit.Proofs.Codec.RoundTrip

/-!
# `Proofs/Codec/Normal.lean`: the same value is written the same way

Two values that differ only in the order of what their sets and maps hold are written as the same
bytes, because members and entries are put in the one order that their keys have; and where one of
them cannot be written the other cannot either, for the same reason (`writesSame`). What was written and
read back is therefore written as the bytes that were read (`exists_decode_encode`), also by codecs
that accept other bytes for it.
-/

set_option autoImplicit false

namespace ContractKit.Codec

open Value (Same SameAll SameEntries SameEntry)

/-- Exact values that are the same are written the same way. -/
def WritesSame (c : Codec) : Prop := ∀ ⦃v w : Value⦄, c.Exact v → Same v w → c.emit w = c.emit v

theorem eq_none_of_same {v : Value} (h : Same v .none) : v = .none := by
  cases v <;> simp [Same] at h ⊢

/-- Where no sets and maps are, there is nothing to show. -/
theorem writesSame_of_isKey {c : Codec} (hkey : c.isKey = true) : c.WritesSame := by
  intro v w hv h
  rw [eq_of_same hkey hv h]

theorem writesSame_optional {item : Codec} (h : item.WritesSame) :
    (Codec.optional item).WritesSame := by
  intro v w hv hsame
  by_cases hnone : v = .none
  · subst hnone
    rw [show w = .none by simpa [Same] using hsame]
  · have hnone' : w ≠ .none := by
      rintro rfl
      exact hnone (eq_none_of_same hsame)
    rw [emit_optional hnone, emit_optional hnone', h (hv.resolve_left hnone) hsame]

/-! ## Lists of items -/

theorem each_eq_of_sameAll {write : Value → Emit} {xs : List Value}
    (hitem : ∀ x ∈ xs, ∀ y, Same x y → write y = write x) :
    ∀ {ys : List Value}, SameAll xs ys → Emit.each write ys = Emit.each write xs := by
  induction xs with
  | nil =>
    rintro ys rfl
    rfl
  | cons x xs ih =>
    rintro ys ⟨z, zs, rfl, hz, hzs⟩
    show write z ++ Emit.each write zs = write x ++ Emit.each write xs
    rw [hitem x (by simp) z hz, ih (fun x' hx' => hitem x' (by simp [hx'])) hzs]

theorem length_of_sameAll {xs ys : List Value} (h : SameAll xs ys) : ys.length = xs.length :=
  (Value.sameAll_iff.mp h).length_eq.symm

theorem writesSame_sequence {tuples : Bool} {item : Codec} {width : PrefixWidth}
    {order : OrderPolicy} (h : item.WritesSame) :
    (Codec.sequence tuples item width order).WritesSame := by
  rintro v w ⟨vs, rfl, hvs⟩ hsame
  obtain ⟨ws, rfl, hws⟩ : ∃ ws, w = (if tuples then .tuple ws else .list ws) ∧ SameAll vs ws := by
    cases tuples <;> exact hsame
  rw [emit_sequence, emit_sequence, length_of_sameAll hws,
    each_eq_of_sameAll (fun x hx y hy => h (hvs x hx) hy) hws]

theorem writesSame_varTuple {item : Codec} (h : item.WritesSame) :
    (Codec.varTuple item).WritesSame := by
  rintro v w ⟨vs, rfl, hvs⟩ ⟨ws, rfl, hws⟩
  rw [emit_varTuple, emit_varTuple, length_of_sameAll hws,
    each_eq_of_sameAll (fun x hx y hy => h (hvs x hx) hy) hws]

/-! ## Sets and maps -/

/-- Members are identical when they are the same, and so is the order that they are put in. -/
theorem writesSame_set {frozen : Bool} {member : Codec} {width : PrefixWidth} {order : OrderPolicy}
    (hkey : member.isKey = true) (hsound : member.Sound) :
    (Codec.set frozen member width order).WritesSame := by
  rintro v w ⟨vs, rfl, hvs, hdistinct⟩ hsame
  obtain ⟨ys, zs, rfl, hys, hperm⟩ : ∃ ys zs, w = (if frozen then .frozenset zs else .set zs) ∧
      SameAll vs ys ∧ ys.Perm zs := by
    cases frozen <;> exact hsame
  obtain rfl : ys = vs := hys.eq fun x hx y hy => eq_of_same hkey (hvs x hx) hy
  have hspace := keySpace_exact hkey hsound
  obtain ⟨ws, hsorted, hperm', hasc⟩ := hspace.exists_ordered id hvs hdistinct
  have hws : ∀ x ∈ ws, member.Exact x := fun x hx => hvs x (hperm'.mem_iff.mp hx)
  have hsorted' : Value.sortedBy? Value.lt? zs = some ws :=
    hspace.sortedBy?_of_perm id hws hasc (hperm'.trans hperm).symm
  rw [emit_set hsorted, emit_set hsorted', hperm.length_eq]

/-- Entries that are the same have identical keys. -/
theorem keyed_of_sameEntries {key value : Codec} (hkey : key.isKey = true) :
    ∀ {es fs : List (Value × Value)}, (∀ e ∈ es, key.Exact e.1 ∧ value.Exact e.2) →
      SameEntries es fs →
        List.Forall₂ (fun e f : Value × Value => f.1 = e.1 ∧ Same e.2 f.2) es fs
  | [], _, _, h => by
    rw [show _ = [] from h]
    exact .nil
  | (k, v) :: es, _, hes, ⟨l, w, gs, hfs, hk, hv, hgs⟩ => by
    rw [hfs]
    exact .cons ⟨eq_of_same hkey (hes (k, v) (by simp)).1 hk, hv⟩
      (keyed_of_sameEntries hkey (fun e he => hes e (by simp [he])) hgs)

theorem each_emitEntry_eq {key value : Codec} (h : value.WritesSame) :
    ∀ {es fs : List (Value × Value)}, (∀ e ∈ es, value.Exact e.2) →
      List.Forall₂ (fun e f : Value × Value => f.1 = e.1 ∧ Same e.2 f.2) es fs →
        Emit.each (emitEntry key value) fs = Emit.each (emitEntry key value) es
  | [], [], _, .nil => rfl
  | e :: es, f :: fs, hes, .cons hef hrest => by
    show emitEntry key value f ++ Emit.each (emitEntry key value) fs =
      emitEntry key value e ++ Emit.each (emitEntry key value) es
    rw [each_emitEntry_eq h (fun e' he' => hes e' (by simp [he'])) hrest, emitEntry, emitEntry,
      hef.1, h (hes e (by simp)) hef.2]

/-- The same for maps, whose values follow their keys. -/
theorem writesSame_map {key value : Codec} {width : PrefixWidth} {order : OrderPolicy}
    (hkey : key.isKey = true) (hsound : key.Sound) (hv : value.WritesSame) :
    (Codec.map key value width order).WritesSame := by
  rintro v w ⟨es, rfl, hes, hdistinct⟩ ⟨fs, gs, rfl, hfs, hperm⟩
  have hspace := keySpace_exact hkey hsound
  have hfs := keyed_of_sameEntries hkey hes hfs
  obtain ⟨es', hsorted, hperm', hasc⟩ :=
    hspace.exists_ordered Prod.fst (fun e he => (hes e he).1) hdistinct
  have hes' : ∀ e ∈ es', key.Exact e.1 ∧ value.Exact e.2 := fun e he => hes e (hperm'.mem_iff.mp he)
  -- what stands opposite the arranged entries is the arrangement of the others
  obtain ⟨gs', hsame, hperm''⟩ := List.perm_comp_forall₂ hperm' hfs
  have hkeys := map_fst_eq hsame
  have hgs' : ∀ g ∈ gs', key.Exact g.1 := by
    intro g hg
    have hmem : g.1 ∈ es'.map Prod.fst := hkeys ▸ List.mem_map_of_mem hg
    obtain ⟨e, he, heq⟩ := List.mem_map.mp hmem
    exact heq ▸ (hes' e he).1
  have hasc' : gs'.Pairwise fun a b => Value.lt? a.1 b.1 = some true := by
    rw [← List.pairwise_map (f := Prod.fst) (R := fun a b => Value.lt? a b = some true), hkeys,
      List.pairwise_map]
    exact hasc
  have hsorted' : Value.sortedBy? (fun a b => Value.lt? a.1 b.1) gs = some gs' :=
    hspace.sortedBy?_of_perm Prod.fst hgs' hasc' (hperm''.trans hperm).symm
  rw [emit_map hsorted, emit_map hsorted', ← hperm.length_eq, ← hfs.length_eq,
    each_emitEntry_eq hv (fun e he => (hes' e he).2) hsame]

/-! ## Fields -/

theorem emitEach_eq_of_sameAll : ∀ {cs : List Codec}, (∀ c ∈ cs, c.WritesSame) →
    ∀ {vs ws : List Value}, ExactEach cs vs → SameAll vs ws → emitEach cs ws = emitEach cs vs
  | [], _, _, _, _, _ => by rw [emitEach, emitEach]
  | c :: cs, hcs, _, _, ⟨x, xs, hvs, hx, hxs⟩, hsame => by
    subst hvs
    obtain ⟨z, zs, rfl, hz, hzs⟩ := hsame
    rw [emitEach, emitEach, hcs c (by simp) hx hz,
      emitEach_eq_of_sameAll (fun d hd => hcs d (by simp [hd])) hxs hzs]

theorem writesSame_tuple {items : List Codec} (h : ∀ c ∈ items, c.WritesSame) :
    (Codec.tuple items).WritesSame := by
  rintro v w ⟨vs, rfl, hvs⟩ ⟨ws, rfl, hws⟩
  have hlen := length_of_exactEach hvs
  rw [emit_tuple hlen, emit_tuple ((length_of_sameAll hws).trans hlen),
    emitEach_eq_of_sameAll h hvs hws]

theorem writesSame_struct {target : Target} {directions : Directions} {fields : List Codec}
    (h : ∀ c ∈ fields, c.WritesSame) : (Codec.struct target directions fields).WritesSame := by
  rintro v w ⟨vs, rfl, hvs⟩ ⟨ws, rfl, hws⟩
  have hlen := length_of_exactEach hvs
  rw [emit_struct_eq hlen, emit_struct_eq ((length_of_sameAll hws).trans hlen),
    emitEach_eq_of_sameAll h hvs hws]

theorem writesSame_variants {enum : ClassRef} {directions : Directions} {tag : TagWidth}
    {cases : List (Target × List Codec)}
    (hsame : ∀ a ∈ cases, ∀ b ∈ cases, a.1.cls.ref.id = b.1.cls.ref.id → a = b)
    (h : ∀ case ∈ cases, ∀ c ∈ case.2, c.WritesSame) :
    (Codec.variants enum directions tag cases).WritesSame := by
  intro v w hv hvw
  obtain ⟨case, hcase, vs, rfl, hvs⟩ := exactCase_iff.mp hv
  obtain ⟨ws, rfl, hws⟩ := hvw
  have hvs := exactEach_iff.mpr hvs
  have hlen := length_of_exactEach hvs
  obtain ⟨i, hvariant, hi⟩ := variantOf?_exact hcase hsame vs
  -- the variant is found by the class alone
  have hvariant' : variantOf? cases (.record case.1.cls ws) = some i := hvariant
  rw [emit_variants_eq hvariant hi hlen,
    emit_variants_eq hvariant' hi ((length_of_sameAll hws).trans hlen),
    emitEach_eq_of_sameAll (h case hcase) hvs hws]

/-! ## All codecs -/

/-- **Values that are the same are written the same way**, also where that fails. By induction over the
codec. Where members or entries are arranged, both arrangements are the one that ascends. -/
theorem writesSame {c : Codec} (hsound : c.Sound) (hkeys : ∀ d ∈ c.parts, d.keysFit = true) :
    c.WritesSame := by
  induction c using induct with
  | h c ih =>
    have ih' : ∀ d ∈ c.children, d.WritesSame := fun d hd =>
      ih d hd (hsound.child hd) fun e he => hkeys e (mem_parts_of_child hd he)
    have hkey := hkeys c (self_mem_parts c)
    cases c with
    | int _ | bool | accountAddress | contractAddress | bytes _ _ | text _ _ =>
      exact writesSame_of_isKey rfl
    | unit target directions =>
      rintro v w rfl ⟨ws, rfl, hws⟩
      rw [show ws = [] from hws]
    | members enum hashable directions tag cases =>
      rintro v w ⟨m, -, rfl⟩ h
      rw [show w = m.value enum by simpa [Member.value, Same] using h]
    | sequence tuples item width order => exact writesSame_sequence (ih' item (by simp [children]))
    | varTuple item => exact writesSame_varTuple (ih' item (by simp [children]))
    | optional item => exact writesSame_optional (ih' item (by simp [children]))
    | set frozen member width order =>
      exact writesSame_set hkey (hsound.child (by simp [children]))
    | map key value width order =>
      exact writesSame_map hkey (hsound.child (by simp [children]))
        (ih' value (by simp [children]))
    | tuple items => exact writesSame_tuple ih'
    | struct target directions fields =>
      exact writesSame_struct ih'
    | variants enum directions tag cases =>
      exact writesSame_variants hsound.node.2 fun case hcase c hc => ih' c (mem_children_of_case hcase hc)

/-- **What was written is read back as a value that is written as the same bytes.** -/
theorem exists_decode_encode {c : Codec} (hsound : c.Sound) (hregular : c.Regular) {v : Value}
    (hv : c.Exact v) {data : Bytes} (hdata : c.encode v = .ok data) :
    ∃ w, c.read.Takes data w ∧ Same v w ∧ c.encode w = .ok data := by
  obtain ⟨w, hw, hsame⟩ := roundTrips hsound hregular hv hdata
  refine ⟨w, takes_of_strict hw, hsame, ?_⟩
  rw [encode, writesSame hsound hregular.keys hv hsame]
  exact hdata

end ContractKit.Codec
