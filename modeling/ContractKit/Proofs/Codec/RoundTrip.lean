import ContractKit.Proofs.Codec.Layout
import ContractKit.Proofs.Value.Distinct

/-!
# `Proofs/Codec/RoundTrip.lean`: what is written is read back

`RoundTrips c` says that the bytes of every exact value are taken by the reader, which gives back the
same value. The reader is the strict one throughout: what is written ascends, so a reader that refuses
equal keys takes it too, and so does one that resolves them (`takes_of_strict`).

There is one lemma for each way of putting codecs together, and `roundTrips` is the induction over the
tree that cites them. No lemma mentions the bytes behind the value; `Read.run_eq_ok_iff` adds those.
-/

set_option autoImplicit false

namespace ContractKit.Codec

open Bytes (Pieces)
open Value (Same SameAll SameEntry)

/-- What is written for an exact value is read back as the same value, equal keys refused. -/
def RoundTrips (c : Codec) : Prop :=
  ∀ ⦃v : Value⦄ ⦃data : Bytes⦄, c.Exact v → (c.emit v).toBytes = .ok data →
    ∃ w, c.strict.read.Takes data w ∧ Same v w

theorem Faithful.roundTrips {c : Codec} (h : c.Faithful) (hstrict : c.strict = c) :
    c.RoundTrips := by
  intro v data hv hdata
  rw [hstrict]
  exact ⟨v, (h v data).mpr ⟨hv, hdata⟩, Same.refl v⟩

theorem roundTrips_optional {item : Codec} (h : item.RoundTrips) : (Codec.optional item).RoundTrips := by
  intro v data hv hdata
  rw [strict]
  by_cases hnone : v = .none
  · subst hnone
    rw [emit, Emit.toBytes_byte] at hdata
    exact ⟨.none, takes_optional.mpr (Or.inl ⟨hdata, rfl⟩), Same.refl _⟩
  · rw [emit_optional hnone, Emit.toBytes_append_eq_ok] at hdata
    obtain ⟨front, rest, rfl, hfront, hrest⟩ := hdata
    rw [Emit.toBytes_byte] at hfront
    obtain ⟨w, hw, hsame⟩ := h (hv.resolve_left hnone) hrest
    exact ⟨w, takes_optional.mpr (Or.inr ⟨rest, by simp [hfront], hw⟩), hsame⟩

/-! ## Lists of items -/

/-- Items written behind a count are read back one after the other. -/
theorem RoundTrips.counted {item : Codec} (h : item.RoundTrips) {width : PrefixWidth}
    {vs : List Value} {data : Bytes} (hvs : ∀ x ∈ vs, item.Exact x)
    (hdata : (Emit.count width vs.length ++ Emit.each item.emit vs).toBytes = .ok data) :
    ∃ ws, SameAll vs ws ∧ (Read.prefixedItems width item.strict.read).Takes data ws := by
  obtain ⟨front, rest, rfl, hcount, hrest⟩ := Emit.toBytes_append_eq_ok.mp hdata
  rw [Emit.toBytes_each] at hrest
  obtain ⟨ws, hsame, hws⟩ := Pieces.exchange
    (fun x hx d hd => (h (hvs x hx) hd).imp fun w hw => hw.symm) hrest
  refine ⟨ws, Value.sameAll_iff.mpr hsame, Read.takes_prefixedItems.mpr ⟨front, rest, rfl, ?_, hws⟩⟩
  exact hsame.length_eq ▸ hcount

theorem roundTrips_sequence {tuples : Bool} {item : Codec} {width : PrefixWidth}
    {order : OrderPolicy} (h : item.RoundTrips) :
    (Codec.sequence tuples item width order).RoundTrips := by
  rintro v data ⟨vs, rfl, hvs⟩ hdata
  rw [emit_sequence] at hdata
  obtain ⟨ws, hsame, hws⟩ := h.counted hvs hdata
  refine ⟨_, takes_sequence.mpr ⟨ws, hws, rfl⟩, ?_⟩
  cases tuples with
  | true => exact ⟨ws, rfl, hsame⟩
  | false => exact ⟨ws, rfl, hsame⟩

theorem roundTrips_varTuple {item : Codec} (h : item.RoundTrips) : (Codec.varTuple item).RoundTrips := by
  rintro v data ⟨vs, rfl, hvs⟩ hdata
  rw [emit_varTuple] at hdata
  obtain ⟨ws, hsame, hws⟩ := h.counted hvs hdata
  exact ⟨_, takes_varTuple.mpr ⟨ws, hws, rfl⟩, ws, rfl, hsame⟩

/-! ## Sets and maps -/

theorem same_setOf {frozen : Bool} {vs ws : List Value} (h : vs.Perm ws) :
    Same (if frozen then .frozenset vs else .set vs) (if frozen then .frozenset ws else .set ws) := by
  cases frozen with
  | true => exact ⟨vs, ws, rfl, SameAll.refl vs, h⟩
  | false => exact ⟨vs, ws, rfl, SameAll.refl vs, h⟩

/-- The members are written in ascending order, so they are accepted, and none of them is lost when
the set is built from them. -/
theorem roundTrips_set {frozen : Bool} {member : Codec} {width : PrefixWidth} {order : OrderPolicy}
    (hkey : member.isKey = true) (hsound : member.Sound) (h : member.RoundTrips) :
    (Codec.set frozen member width order).RoundTrips := by
  rintro v data ⟨vs, rfl, hvs, hdistinct⟩ hdata
  have hspace := keySpace_exact hkey hsound
  -- the writer goes through `ws`, not through the members as they stand
  obtain ⟨ws, hsorted, hperm, hasc⟩ := hspace.exists_ordered id hvs hdistinct
  have hws : ∀ w ∈ ws, member.Exact w := fun w hw => hvs w (hperm.mem_iff.mp hw)
  rw [emit_set hsorted, ← hperm.length_eq] at hdata
  obtain ⟨xs, hsame, hxs⟩ := h.counted hws hdata
  -- keys come back identical, so what was read ascends because what was written did
  obtain rfl : xs = ws := hsame.eq fun w hw y hy => eq_of_same hkey (hws w hw) hy
  have hnodup : xs.Nodup := by
    have := (hspace.nodup_iff id hws).mp (hspace.distinct_of_ascending id hws hasc)
    rwa [List.map_id] at this
  refine ⟨if frozen then .frozenset xs else .set xs, ?_, same_setOf hperm.symm⟩
  refine takes_set.mpr ⟨xs, hxs, ?_, ?_⟩
  · exact KeyCheck.accepted_of_ascending (fun k hk => hspace.hashable (hws k hk)) hasc (by simp)
  · rw [setOf, Value.membersOf_of_nodup hspace hws hnodup]

/-- An entry is read back with the key that was written. -/
theorem exists_takes_entry {key value : Codec} (hkey : key.isKey = true) (hk : key.RoundTrips)
    (hv : value.RoundTrips) {e : Value × Value} (he : key.Exact e.1 ∧ value.Exact e.2) {data : Bytes}
    (hdata : (emitEntry key value e).toBytes = .ok data) :
    ∃ f : Value × Value, (f.1 = e.1 ∧ Same e.2 f.2) ∧
      (Read.entry key.strict.read value.strict.read).Takes data f := by
  obtain ⟨x, y, rfl, hx, hy⟩ := Emit.toBytes_append_eq_ok.mp hdata
  obtain ⟨k, hkx, hkk⟩ := hk he.1 hx
  obtain ⟨w, hwy, hww⟩ := hv he.2 hy
  exact ⟨(k, w), ⟨eq_of_same hkey he.1 hkk, hww⟩, Read.takes_entry.mpr ⟨x, y, rfl, hkx, hwy⟩⟩

theorem map_fst_eq {fs gs : List (Value × Value)}
    (h : List.Forall₂ (fun f g : Value × Value => g.1 = f.1 ∧ Same f.2 g.2) fs gs) :
    gs.map Prod.fst = fs.map Prod.fst := by
  induction h with
  | nil => rfl
  | cons h _ ih => rw [List.map_cons, List.map_cons, h.1, ih]

/-- The same for maps. The entries follow their keys. -/
theorem roundTrips_map {key value : Codec} {width : PrefixWidth} {order : OrderPolicy}
    (hkey : key.isKey = true) (hsound : key.Sound) (hk : key.RoundTrips) (hv : value.RoundTrips) :
    (Codec.map key value width order).RoundTrips := by
  rintro v data ⟨es, rfl, hes, hdistinct⟩ hdata
  have hspace := keySpace_exact hkey hsound
  obtain ⟨fs, hsorted, hperm, hasc⟩ :=
    hspace.exists_ordered Prod.fst (fun e he => (hes e he).1) hdistinct
  have hfs : ∀ f ∈ fs, key.Exact f.1 ∧ value.Exact f.2 := fun f hf => hes f (hperm.mem_iff.mp hf)
  rw [emit_map hsorted, Emit.toBytes_append_eq_ok] at hdata
  obtain ⟨front, rest, rfl, hcount, hrest⟩ := hdata
  rw [Emit.toBytes_each] at hrest
  -- the values of `gs` may differ in the order of what they hold, its keys do not
  obtain ⟨gs, hsame, hgs⟩ :=
    Pieces.exchange (fun f hf d hd => exists_takes_entry hkey hk hv (hfs f hf) hd) hrest
  have hkeys := map_fst_eq hsame
  have hfskeys : ∀ f ∈ fs, key.Exact f.1 := fun f hf => (hfs f hf).1
  have hexact : ∀ k ∈ gs.map Prod.fst, key.Exact k := by
    rw [hkeys]
    intro k hk
    obtain ⟨f, hf, rfl⟩ := List.mem_map.mp hk
    exact hfskeys f hf
  have hnodup : (gs.map Prod.fst).Nodup := by
    rw [hkeys]
    exact (hspace.nodup_iff _ hfskeys).mp (hspace.distinct_of_ascending _ hfskeys hasc)
  refine ⟨.dict gs, takes_map.mpr ⟨gs, ?_, ?_, ?_⟩, ?_⟩
  · refine Read.takes_prefixedItems.mpr ⟨front, rest, rfl, ?_, hgs⟩
    rw [← hsame.length_eq, hperm.length_eq]
    exact hcount
  · refine KeyCheck.accepted_of_ascending (fun k hk => hspace.hashable (hexact k hk)) ?_ (by simp)
    rw [hkeys, List.pairwise_map]
    exact hasc
  · have hgskeys : ∀ g ∈ gs, key.Exact g.1 := fun g hg => hexact g.1 (List.mem_map_of_mem hg)
    rw [Value.entriesOf_of_nodup hspace hgskeys hnodup]
  · -- the entries of the value stand in another order than those that were written
    have hentries : List.Forall₂ SameEntry fs gs := hsame.imp fun f g h => ⟨h.1 ▸ Same.refl _, h.2⟩
    obtain ⟨hs, hsame', hperm'⟩ := List.perm_comp_forall₂ hperm.symm hentries
    exact ⟨hs, gs, rfl, Value.sameEntries_iff.mpr hsame', hperm'⟩

/-! ## Fields -/

theorem roundTrips_fields : ∀ {cs : List Codec}, (∀ c ∈ cs, c.RoundTrips) →
    ∀ {vs : List Value} {data : Bytes}, ExactEach cs vs → (emitEach cs vs).toBytes = .ok data →
      ∃ ws, (readEach (strictAll cs)).Takes data ws ∧ SameAll vs ws
  | [], _, vs, data, hvs, hdata => by
    obtain rfl : vs = [] := hvs
    rw [emitEach, Emit.toBytes_nothing, Except.ok.injEq] at hdata
    exact ⟨[], ⟨hdata.symm, rfl⟩, rfl⟩
  | c :: cs, hcs, vs, data, hvs, hdata => by
    obtain ⟨x, xs, rfl, hx, hxs⟩ := hvs
    rw [emitEach, Emit.toBytes_append_eq_ok] at hdata
    obtain ⟨front, rest, rfl, hfront, hrest⟩ := hdata
    obtain ⟨w, hw, hsame⟩ := hcs c (by simp) hx hfront
    obtain ⟨ws, hws, hsames⟩ := roundTrips_fields (fun d hd => hcs d (by simp [hd])) hxs hrest
    refine ⟨w :: ws, ?_, w, ws, rfl, hsame, hsames⟩
    exact takes_readEach_cons.mpr ⟨w, ws, front, rest, rfl, rfl, hw, hws⟩

theorem roundTrips_tuple {items : List Codec} (h : ∀ c ∈ items, c.RoundTrips) :
    (Codec.tuple items).RoundTrips := by
  rintro v data ⟨vs, rfl, hvs⟩ hdata
  rw [emit_tuple (length_of_exactEach hvs)] at hdata
  obtain ⟨ws, hws, hsame⟩ := roundTrips_fields h hvs hdata
  exact ⟨.tuple ws, takes_tuple.mpr ⟨ws, hws, rfl⟩, ws, rfl, hsame⟩

theorem roundTrips_struct {target : Target} {directions : Directions} {fields : List Codec}
    (hwrites : directions.writes = true) (hreads : directions.reads = true)
    (hbuilds : target.rejection.isNone = true) (h : ∀ c ∈ fields, c.RoundTrips) :
    (Codec.struct target directions fields).RoundTrips := by
  rintro v data ⟨vs, rfl, hvs⟩ hdata
  rw [emit_struct hwrites (length_of_exactEach hvs)] at hdata
  obtain ⟨ws, hws, hsame⟩ := roundTrips_fields h hvs hdata
  exact ⟨_, takes_struct.mpr ⟨hreads, ws, hws, build_eq hbuilds ws⟩, ws, rfl, hsame⟩

/-- The tag leads the reader to the variant that the writer found. -/
theorem roundTrips_variants {enum : ClassRef} {directions : Directions} {tag : TagWidth}
    {cases : List (Target × List Codec)} (hwrites : directions.writes = true)
    (hreads : directions.reads = true) (hbuilds : ∀ case ∈ cases, case.1.rejection.isNone = true)
    (hsame : ∀ a ∈ cases, ∀ b ∈ cases, a.1.cls.ref.id = b.1.cls.ref.id → a = b)
    (h : ∀ case ∈ cases, ∀ c ∈ case.2, c.RoundTrips) :
    (Codec.variants enum directions tag cases).RoundTrips := by
  intro v data hv hdata
  obtain ⟨case, hcase, vs, rfl, hvs⟩ := exactCase_iff.mp hv
  have hvs := exactEach_iff.mpr hvs
  obtain ⟨i, hvariant, hi⟩ := variantOf?_exact hcase hsame vs
  rw [emit_variants hwrites hvariant hi (length_of_exactEach hvs),
    Emit.toBytes_append_eq_ok] at hdata
  obtain ⟨front, rest, rfl, htag, hrest⟩ := hdata
  obtain ⟨ws, hws, hsames⟩ := roundTrips_fields (h case hcase) hvs hrest
  refine ⟨.record case.1.cls ws, takes_variants.mpr ⟨hreads, i, (case.1, strictAll case.2), ws, front,
    rest, rfl, htag, ?_, hws, build_eq (hbuilds case hcase) ws⟩, ws, rfl, hsames⟩
  -- turning the cases strict moves none of them
  rw [strictCases_eq, List.getElem?_map, hi]
  rfl

/-! ## All codecs -/

/-- **What is written for an exact value is read back as the same value.** By induction over the codec.
It is about the values of exactly the type, since what is read is one of those. -/
theorem roundTrips {c : Codec} (hsound : c.Sound) (hregular : c.Regular) : c.RoundTrips := by
  induction c using induct with
  | h c ih =>
    have ih' : ∀ d ∈ c.children, d.RoundTrips := fun d hd =>
      ih d hd (hsound.child hd) (hregular.child hd)
    have hkeys := hregular.keys c (self_mem_parts c)
    have hbuilds := hregular.builds c (self_mem_parts c)
    have hreads : c.can Directions.reads = true := hregular.reads
    have hwrites : c.can Directions.writes = true := hregular.writes
    -- leaves are faithful, which is more; sets and maps come back with their keys in order
    cases c with
    | int format => exact (faithful_int format).roundTrips rfl
    | bool => exact faithful_bool.roundTrips rfl
    | accountAddress => exact faithful_accountAddress.roundTrips rfl
    | contractAddress => exact faithful_contractAddress.roundTrips rfl
    | bytes width order => exact (faithful_bytes width order).roundTrips rfl
    | text width order => exact (faithful_text width order).roundTrips rfl
    | unit target directions => exact (faithful_unit hwrites hreads hbuilds).roundTrips rfl
    | members enum hashable directions tag cases =>
      exact (faithful_members hwrites hreads hsound.node).roundTrips rfl
    | sequence tuples item width order => exact roundTrips_sequence (ih' item (by simp [children]))
    | varTuple item => exact roundTrips_varTuple (ih' item (by simp [children]))
    | optional item => exact roundTrips_optional (ih' item (by simp [children]))
    | set frozen member width order =>
      have hmember : member ∈ (Codec.set frozen member width order).children := by simp [children]
      exact roundTrips_set hkeys (hsound.child hmember) (ih' member hmember)
    | map key value width order =>
      have hkey : key ∈ (Codec.map key value width order).children := by simp [children]
      exact roundTrips_map hkeys (hsound.child hkey) (ih' key hkey) (ih' value (by simp [children]))
    | tuple items => exact roundTrips_tuple ih'
    | struct target directions fields =>
      exact roundTrips_struct (Bool.and_eq_true_iff.mp hwrites).1 (Bool.and_eq_true_iff.mp hreads).1
        hbuilds ih'
    | variants enum directions tag cases =>
      exact roundTrips_variants (Bool.and_eq_true_iff.mp hwrites).1
        (Bool.and_eq_true_iff.mp hreads).1 (List.all_eq_true.mp hbuilds) hsound.node.2
        fun case hcase c hc => ih' c (mem_children_of_case hcase hc)

/-! ## Readers that resolve equal keys -/

theorem takes_fields_of_strict : ∀ {cs : List Codec},
    (∀ c ∈ cs, ∀ ⦃data : Bytes⦄ ⦃v : Value⦄, c.strict.read.Takes data v → c.read.Takes data v) →
      ∀ {data : Bytes} {vs : List Value}, (readEach (strictAll cs)).Takes data vs →
        (readEach cs).Takes data vs
  | [], _, _, _, h => h
  | c :: cs, hcs, data, vs, h => by
    obtain ⟨x, xs, front, rest, rfl, rfl, hx, hxs⟩ := takes_readEach_cons.mp h
    refine takes_readEach_cons.mpr ⟨x, xs, front, rest, rfl, rfl, hcs c (by simp) hx, ?_⟩
    exact takes_fields_of_strict (fun d hd => hcs d (by simp [hd])) hxs

theorem accepted_of_strict {order : OrderPolicy} {keys : List Value}
    (h : (keyCheck order.strict).Accepted none keys) : (keyCheck order).Accepted none keys := by
  refine h.weaken (fun hasc => ?_) fun _ => rfl
  cases order with
  | strictlyIncreasing => rfl
  | unchecked | unique => cases hasc

/-- What a strict reader takes is taken, with the same result, by one that resolves equal keys. -/
theorem takes_of_strict {c : Codec} :
    ∀ ⦃data : Bytes⦄ ⦃v : Value⦄, c.strict.read.Takes data v → c.read.Takes data v := by
  induction c using induct with
  | h c ih =>
    have hitems : ∀ {item : Codec}, item ∈ c.children → ∀ {width : PrefixWidth} {data : Bytes}
        {vs : List Value}, (Read.prefixedItems width item.strict.read).Takes data vs →
          (Read.prefixedItems width item.read).Takes data vs := by
      intro item hitem width data vs h
      rw [Read.takes_prefixedItems] at h ⊢
      obtain ⟨front, rest, rfl, hcount, hpieces⟩ := h
      exact ⟨front, rest, rfl, hcount, hpieces.mono fun x _ d hd => ih item hitem hd⟩
    intro data v h
    -- only the checks of keys differ, and what the strict one accepts every one accepts
    cases c with
    | int _ | bool | accountAddress | contractAddress | bytes _ _ | text _ _ | unit _ _
    | members _ _ _ _ _ => exact h
    | sequence tuples item width order =>
      obtain ⟨vs, hvs, rfl⟩ := takes_sequence.mp h
      exact takes_sequence.mpr ⟨vs, hitems (by simp [children]) hvs, rfl⟩
    | varTuple item =>
      obtain ⟨vs, hvs, rfl⟩ := takes_varTuple.mp h
      exact takes_varTuple.mpr ⟨vs, hitems (by simp [children]) hvs, rfl⟩
    | optional item =>
      rw [strict, takes_optional] at h
      rw [takes_optional]
      rcases h with hnone | ⟨rest, hdata, hrest⟩
      · exact Or.inl hnone
      · exact Or.inr ⟨rest, hdata, ih item (by simp [children]) hrest⟩
    | set frozen member width order =>
      obtain ⟨vs, hvs, hkeys, rfl⟩ := takes_set.mp h
      exact takes_set.mpr ⟨vs, hitems (by simp [children]) hvs, accepted_of_strict hkeys, rfl⟩
    | map key value width order =>
      obtain ⟨es, hes, hkeys, rfl⟩ := takes_map.mp h
      obtain ⟨front, rest, rfl, hcount, hpieces⟩ := Read.takes_prefixedItems.mp hes
      refine takes_map.mpr ⟨es, Read.takes_prefixedItems.mpr
        ⟨front, rest, rfl, hcount, hpieces.mono fun e _ d hd => ?_⟩, accepted_of_strict hkeys, rfl⟩
      obtain ⟨x, y, rfl, hx, hy⟩ := Read.takes_entry.mp hd
      exact Read.takes_entry.mpr ⟨x, y, rfl, ih key (by simp [children]) hx,
        ih value (by simp [children]) hy⟩
    | tuple items =>
      obtain ⟨vs, hvs, rfl⟩ := takes_tuple.mp h
      exact takes_tuple.mpr ⟨vs, takes_fields_of_strict (fun d hd => ih d hd) hvs, rfl⟩
    | struct target directions fields =>
      obtain ⟨hreads, vs, hvs, hv⟩ := takes_struct.mp h
      exact takes_struct.mpr ⟨hreads, vs, takes_fields_of_strict (fun d hd => ih d hd) hvs, hv⟩
    | variants enum directions tag cases =>
      obtain ⟨hreads, i, case, vs, front, rest, rfl, htag, hi, hvs, hv⟩ := takes_variants.mp h
      rw [strictCases_eq, List.getElem?_map, Option.map_eq_some_iff] at hi
      obtain ⟨case', hi, rfl⟩ := hi
      refine takes_variants.mpr ⟨hreads, i, case', vs, front, rest, rfl, htag, hi, ?_, hv⟩
      exact takes_fields_of_strict
        (fun d hd => ih d (mem_children_of_case (List.mem_of_getElem? hi) hd)) hvs

end ContractKit.Codec
