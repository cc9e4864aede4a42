import ContractKit.Proofs.Codec.RoundTrip

/-!
# `Proofs/Codec/Reencode.lean`: what is read can be written again

The converse of the round trip. A value that was read is exact, and writing it succeeds with bytes
that are no more than those read. They are the very same bytes where the codec has one form for each
value (`isCanonical`): the reader accepts nothing there that the writer does not produce.

`Rewrites` is the statement about one piece of writing, and it composes: of two pieces, of a list of
items, and, where equal keys were resolved and the rest put in order, of any arrangement of some of
the items that were read (`Rewrites.arranged`).
-/

set_option autoImplicit false

namespace ContractKit

open Bytes (Pieces)

/-! ## Writing again -/

/-- The writing succeeds with no more bytes than the given ones, and with the given ones if they are
in canonical form. -/
def Rewrites (e : Emit) (canonical : Prop) (data : Bytes) : Prop :=
  ∃ out, e.toBytes = .ok out ∧ out.length ≤ data.length ∧ (canonical → out = data)

namespace Rewrites

variable {α : Type} {p q : Prop} {data : Bytes}

theorem of_eq {e : Emit} (h : e.toBytes = .ok data) : Rewrites e p data :=
  ⟨data, h, Nat.le_refl _, fun _ => rfl⟩

theorem mono {e : Emit} (h : Rewrites e p data) (hpq : q → p) : Rewrites e q data := by
  obtain ⟨out, hout, hlen, heq⟩ := h
  exact ⟨out, hout, hlen, fun hq => heq (hpq hq)⟩

theorem append {a b : Emit} {front rest : Bytes} (ha : Rewrites a p front)
    (hb : Rewrites b p rest) : Rewrites (a ++ b) p (front ++ rest) := by
  obtain ⟨x, hx, hxlen, hxeq⟩ := ha
  obtain ⟨y, hy, hylen, hyeq⟩ := hb
  refine ⟨x ++ y, Emit.toBytes_append_eq_ok.mpr ⟨x, y, rfl, hx, hy⟩, ?_, fun hp => ?_⟩
  · simp only [List.length_append]
    omega
  · rw [hxeq hp, hyeq hp]

theorem each {write : α → Emit} {R : α → Bytes → Prop} :
    ∀ {as : List α} {data : Bytes}, (∀ a ∈ as, ∀ d, R a d → Rewrites (write a) p d) →
      Pieces R as data → Rewrites (Emit.each write as) p data
  | [], _, _, h => by
    rw [show _ = [] from h]
    exact of_eq rfl
  | a :: as, _, hwrite, ⟨front, rest, hdata, ha, has⟩ => by
    rw [hdata]
    exact (hwrite a (by simp) front ha).append (each (fun b hb => hwrite b (by simp [hb])) has)

end Rewrites

namespace Emit

variable {α : Type} {write : α → Emit}

theorem toBytes_each_perm {as bs : List α} (h : as.Perm bs) :
    ∀ {out : Bytes}, (each write as).toBytes = .ok out →
      ∃ out', (each write bs).toBytes = .ok out' ∧ out'.length = out.length := by
  simp only [toBytes_each]
  induction h with
  | nil => exact fun hout => ⟨_, hout, rfl⟩
  | cons a _ ih =>
    rintro out ⟨x, y, rfl, hx, hy⟩
    obtain ⟨z, hz, hlen⟩ := ih hy
    exact ⟨x ++ z, ⟨x, z, rfl, hx, hz⟩, by simp [hlen]⟩
  | swap a b as =>
    rintro out ⟨x, y, rfl, hx, z, w, rfl, hz, hw⟩
    exact ⟨z ++ (x ++ w), ⟨z, x ++ w, rfl, hz, x, w, rfl, hx, hw⟩, by simp; omega⟩
  | trans _ _ ih ih' =>
    intro out hout
    obtain ⟨out', hout', hlen'⟩ := ih hout
    obtain ⟨out'', hout'', hlen''⟩ := ih' hout'
    exact ⟨out'', hout'', hlen''.trans hlen'⟩

theorem toBytes_each_sublist {as bs : List α} (h : bs.Sublist as) :
    ∀ {out : Bytes}, (each write as).toBytes = .ok out →
      ∃ out', (each write bs).toBytes = .ok out' ∧ out'.length ≤ out.length := by
  simp only [toBytes_each]
  induction h with
  | slnil => exact fun hout => ⟨_, hout, Nat.le_refl _⟩
  | cons a _ ih =>
    rintro out ⟨x, y, rfl, -, hy⟩
    obtain ⟨z, hz, hlen⟩ := ih hy
    refine ⟨z, hz, ?_⟩
    rw [List.length_append]
    omega
  | cons_cons a _ ih =>
    rintro out ⟨x, y, rfl, hx, hy⟩
    obtain ⟨z, hz, hlen⟩ := ih hy
    refine ⟨x ++ z, ⟨x, z, rfl, hx, hz⟩, ?_⟩
    simp only [List.length_append]
    omega

/-- Some of the items, in any order, take no more bytes than all of them. -/
theorem toBytes_each_subperm {as bs : List α} (h : bs.Subperm as) {out : Bytes}
    (hout : (each write as).toBytes = .ok out) :
    ∃ out', (each write bs).toBytes = .ok out' ∧ out'.length ≤ out.length := by
  obtain ⟨cs, hperm, hsub⟩ := h
  obtain ⟨x, hx, hlen⟩ := toBytes_each_sublist hsub hout
  obtain ⟨y, hy, hlen'⟩ := toBytes_each_perm hperm hx
  exact ⟨y, hy, by omega⟩

/-- A smaller count fits where a larger one does, in as many bytes. -/
theorem toBytes_count_of_le {width : PrefixWidth} {m n : Nat} (h : m ≤ n) {data : Bytes}
    (hdata : (count width n).toBytes = .ok data) :
    ∃ out, (count width m).toBytes = .ok out ∧ out.length = data.length := by
  obtain ⟨hle, rfl⟩ := toBytes_count.mp hdata
  exact ⟨_, toBytes_count.mpr ⟨Nat.le_trans h hle, rfl⟩, by simp⟩

end Emit

namespace Rewrites

variable {α : Type} {p : Prop} {data : Bytes} {item : Read α} {write : α → Emit}
variable {width : PrefixWidth} {as : List α}

/-- **Of the items that were read behind a count, some can be written again in any arrangement.** If
they are to be the same bytes, the arrangement has to be the one that was read. -/
theorem arranged {bs : List α} (hitem : ∀ a ∈ as, ∀ d, item.Takes d a → Rewrites (write a) p d)
    (hread : (Read.prefixedItems width item).Takes data as) (hsub : bs.Subperm as)
    (heq : p → bs = as) : Rewrites (Emit.count width bs.length ++ Emit.each write bs) p data := by
  obtain ⟨front, rest, rfl, hcount, hpieces⟩ := Read.takes_prefixedItems.mp hread
  obtain ⟨x, hx, hxlen⟩ := Emit.toBytes_count_of_le hsub.length_le hcount
  obtain ⟨y, hy, hylen, hyeq⟩ := Rewrites.each hitem hpieces
  obtain ⟨z, hz, hzlen⟩ := Emit.toBytes_each_subperm hsub hy
  refine ⟨x ++ z, Emit.toBytes_append_eq_ok.mpr ⟨x, z, rfl, hx, hz⟩, ?_, fun hp => ?_⟩
  · simp only [List.length_append]
    omega
  · obtain rfl := heq hp
    rw [hcount, Except.ok.injEq] at hx
    rw [hy, Except.ok.injEq] at hz
    rw [← hx, ← hz, hyeq hp]

/-- The items that were read behind a count can be written again. -/
theorem counted (hitem : ∀ a ∈ as, ∀ d, item.Takes d a → Rewrites (write a) p d)
    (hread : (Read.prefixedItems width item).Takes data as) :
    Rewrites (Emit.count width as.length ++ Emit.each write as) p data :=
  arranged hitem hread (List.Subperm.refl as) fun _ => rfl

end Rewrites

namespace Codec

/-! ## Codecs -/

/-- What is read is an exact value that can be written again. -/
def Reencodes (c : Codec) : Prop :=
  ∀ ⦃v : Value⦄ ⦃data : Bytes⦄, c.read.Takes data v →
    c.Exact v ∧ Rewrites (c.emit v) (c.isCanonical = true) data

theorem Faithful.reencodes {c : Codec} (h : c.Faithful) : c.Reencodes := by
  intro v data hread
  obtain ⟨hv, hdata⟩ := (h v data).mp hread
  exact ⟨hv, Rewrites.of_eq hdata⟩

/-- Only an optional value is absent. -/
theorem exists_optional_of_exact_none {c : Codec} (h : c.Exact .none) :
    ∃ item, c = .optional item := by
  cases c with
  | optional item => exact ⟨item, rfl⟩
  | int _ | bool | accountAddress | bytes _ _ | text _ _ =>
    obtain ⟨x, hx⟩ := h
    cases hx
  | contractAddress =>
    obtain ⟨i, j, hx⟩ := h
    cases hx
  | sequence tuples _ _ _ =>
    obtain ⟨vs, hx, -⟩ := h
    cases tuples <;> cases hx
  | set frozen _ _ _ =>
    obtain ⟨vs, hx, -⟩ := h
    cases frozen <;> cases hx
  | map _ _ _ _ | tuple _ | varTuple _ | struct _ _ _ =>
    obtain ⟨vs, hx, -⟩ := h
    cases hx
  | unit _ _ => cases h
  | members _ _ _ _ _ =>
    obtain ⟨m, -, hx⟩ := h
    cases hx
  | variants _ _ _ _ =>
    obtain ⟨case, -, vs, hx, -⟩ := exactCase_iff.mp h
    cases hx

/-- An absent value of the inner type becomes an absent value, in fewer bytes; where the inner type
has none, nothing changes. -/
theorem reencodes_optional {item : Codec} (h : item.Reencodes) : (Codec.optional item).Reencodes := by
  intro v data hread
  rcases takes_optional.mp hread with ⟨rfl, rfl⟩ | ⟨rest, rfl, hrest⟩
  · exact ⟨Or.inl rfl, Rewrites.of_eq rfl⟩
  obtain ⟨hv, hagain⟩ := h hrest
  refine ⟨Or.inr hv, ?_⟩
  by_cases hnone : v = .none
  · subst hnone
    -- one byte is written for the two or more that were read; a canonical codec rules this out
    obtain ⟨inner, rfl⟩ := exists_optional_of_exact_none hv
    refine ⟨[0], rfl, by simp, fun hcanonical => ?_⟩
    cases isCanonicalNode_of_isCanonical hcanonical
  · rw [emit_optional hnone]
    show Rewrites _ _ ([1] ++ rest)
    refine Rewrites.append (Rewrites.of_eq rfl) (hagain.mono fun hcanonical => ?_)
    exact isCanonical_of_child hcanonical (by simp [children])

/-! ## Lists of items -/

theorem Reencodes.exact {item : Codec} (h : item.Reencodes) {width : PrefixWidth} {vs : List Value}
    {data : Bytes} (hread : (Read.prefixedItems width item.read).Takes data vs) :
    ∀ x ∈ vs, item.Exact x :=
  Read.forall_of_takes_prefixedItems (fun _ _ hx => (h hx).1) hread

theorem reencodes_sequence {tuples : Bool} {item : Codec} {width : PrefixWidth}
    {order : OrderPolicy} (h : item.Reencodes) :
    (Codec.sequence tuples item width order).Reencodes := by
  intro v data hread
  obtain ⟨vs, hvs, rfl⟩ := takes_sequence.mp hread
  refine ⟨⟨vs, rfl, h.exact hvs⟩, ?_⟩
  rw [emit_sequence]
  refine Rewrites.counted (fun x _ d hd => (h hd).2.mono fun hcanonical => ?_) hvs
  exact isCanonical_of_child hcanonical (by simp [children])

theorem reencodes_varTuple {item : Codec} (h : item.Reencodes) : (Codec.varTuple item).Reencodes := by
  intro v data hread
  obtain ⟨vs, hvs, rfl⟩ := takes_varTuple.mp hread
  refine ⟨⟨vs, rfl, h.exact hvs⟩, ?_⟩
  rw [emit_varTuple]
  refine Rewrites.counted (fun x _ d hd => (h hd).2.mono fun hcanonical => ?_) hvs
  exact isCanonical_of_child hcanonical (by simp [children])

/-! ## Sets and maps -/

/-- Keys that are neither left unchecked nor resolved have to ascend. -/
theorem ascending_of_ne {order : OrderPolicy} (hchecked : order ≠ .unchecked)
    (hrefused : (order != .unique) = true) : (keyCheck order).ascending = true := by
  cases order with
  | unchecked => exact absurd rfl hchecked
  | unique => cases hrefused
  | strictlyIncreasing => rfl

/-- Members that were read are some of those in the bytes, each once, and are put in order; they are
all of them, in the order in which they were read, if that was checked. -/
theorem reencodes_set {frozen : Bool} {member : Codec} {width : PrefixWidth} {order : OrderPolicy}
    (hkey : member.isKey = true) (hsound : member.Sound) (hchecked : order ≠ .unchecked)
    (h : member.Reencodes) : (Codec.set frozen member width order).Reencodes := by
  intro v data hread
  obtain ⟨vs, hvs, hkeys, rfl⟩ := takes_set.mp hread
  have hspace := keySpace_exact hkey hsound
  have hexact : ∀ x ∈ vs, member.Exact x := h.exact hvs
  -- repeated members are dropped here, which only shortens what is written
  have hsub := Value.membersOf_sublist hspace hexact
  have hexact' : ∀ x ∈ Value.membersOf vs, member.Exact x := fun x hx => hexact x (hsub.subset hx)
  have hdistinct := Value.distinct_membersOf hspace hexact
  refine ⟨⟨Value.membersOf vs, rfl, hexact', hdistinct⟩, ?_⟩
  obtain ⟨ws, hsorted, hperm, -⟩ := hspace.exists_ordered id hexact' hdistinct
  rw [setOf, emit_set hsorted, ← hperm.length_eq]
  refine Rewrites.arranged (fun x _ d hd => (h hd).2.mono fun hcanonical => ?_) hvs
    (hperm.subperm.trans hsub.subperm) fun hcanonical => ?_
  · exact isCanonical_of_child hcanonical (by simp [children])
  · have hascending := ascending_of_ne hchecked (isCanonicalNode_of_isCanonical hcanonical)
    -- nothing was dropped and nothing is rearranged when the keys had to ascend
    have hasc := KeyCheck.ascending_of_accepted hspace hascending hexact hkeys
    have hnodup := (hspace.nodup_iff id hexact).mp (hspace.distinct_of_ascending id hexact hasc)
    rw [List.map_id] at hnodup
    rw [Value.membersOf_of_nodup hspace hexact hnodup] at hsorted
    exact (Option.some.inj ((hspace.sortedBy?_of_ascending id hexact hasc).symm.trans hsorted)).symm

/-- The same for maps. -/
theorem reencodes_map {key value : Codec} {width : PrefixWidth} {order : OrderPolicy}
    (hkey : key.isKey = true) (hsound : key.Sound) (hchecked : order ≠ .unchecked)
    (hk : key.Reencodes) (hv : value.Reencodes) : (Codec.map key value width order).Reencodes := by
  intro v data hread
  obtain ⟨es, hes, hkeys, rfl⟩ := takes_map.mp hread
  have hspace := keySpace_exact hkey hsound
  have hentry : ∀ {e : Value × Value} {d : Bytes}, (Read.entry key.read value.read).Takes d e →
      (key.Exact e.1 ∧ value.Exact e.2) ∧
        Rewrites (emitEntry key value e) ((Codec.map key value width order).isCanonical = true) d := by
    intro e d hd
    obtain ⟨x, y, rfl, hx, hy⟩ := Read.takes_entry.mp hd
    refine ⟨⟨(hk hx).1, (hv hy).1⟩, Rewrites.append ?_ ?_⟩
    · exact (hk hx).2.mono fun hcanonical => isCanonical_of_child hcanonical (by simp [children])
    · exact (hv hy).2.mono fun hcanonical => isCanonical_of_child hcanonical (by simp [children])
  have hexact : ∀ e ∈ es, key.Exact e.1 ∧ value.Exact e.2 :=
    Read.forall_of_takes_prefixedItems (fun _ _ he => (hentry he).1) hes
  have hexactKeys : ∀ e ∈ es, key.Exact e.1 := fun e he => (hexact e he).1
  -- a later entry takes the place of an earlier one, so the order is not kept and a sublist is too much
  have hsub := Value.entriesOf_subperm hspace hexactKeys
  have hexact' : ∀ e ∈ Value.entriesOf es, key.Exact e.1 ∧ value.Exact e.2 :=
    fun e he => hexact e (hsub.subset he)
  have hdistinct := Value.distinct_entriesOf hspace hexactKeys
  refine ⟨⟨Value.entriesOf es, rfl, hexact', hdistinct⟩, ?_⟩
  obtain ⟨fs, hsorted, hperm, -⟩ :=
    hspace.exists_ordered Prod.fst (fun e he => (hexact' e he).1) hdistinct
  rw [emit_map hsorted, ← hperm.length_eq]
  refine Rewrites.arranged (fun e _ d hd => (hentry hd).2) hes
    (hperm.subperm.trans hsub) fun hcanonical => ?_
  have hascending := ascending_of_ne hchecked (isCanonicalNode_of_isCanonical hcanonical)
  have hkeysExact : ∀ k ∈ es.map Prod.fst, key.Exact k := by
    intro k hk
    obtain ⟨e, he, rfl⟩ := List.mem_map.mp hk
    exact hexactKeys e he
  have hasc := KeyCheck.ascending_of_accepted hspace hascending hkeysExact hkeys
  rw [List.pairwise_map] at hasc
  have hnodup := (hspace.nodup_iff _ hexactKeys).mp (hspace.distinct_of_ascending _ hexactKeys hasc)
  rw [Value.entriesOf_of_nodup hspace hexactKeys hnodup] at hsorted
  exact (Option.some.inj ((hspace.sortedBy?_of_ascending _ hexactKeys hasc).symm.trans hsorted)).symm

/-! ## Fields -/

theorem reencodes_fields : ∀ {cs : List Codec}, (∀ c ∈ cs, c.Reencodes) →
    ∀ {vs : List Value} {data : Bytes}, (readEach cs).Takes data vs →
      ExactEach cs vs ∧ Rewrites (emitEach cs vs) (∀ c ∈ cs, c.isCanonical = true) data
  | [], _, vs, data, h => by
    obtain ⟨rfl, rfl⟩ : data = [] ∧ vs = [] := h
    exact ⟨rfl, Rewrites.of_eq rfl⟩
  | c :: cs, hcs, vs, data, h => by
    obtain ⟨x, xs, front, rest, rfl, rfl, hx, hxs⟩ := takes_readEach_cons.mp h
    obtain ⟨hexact, hagain⟩ := hcs c (by simp) hx
    obtain ⟨hexacts, hagains⟩ := reencodes_fields (fun d hd => hcs d (by simp [hd])) hxs
    refine ⟨⟨x, xs, rfl, hexact, hexacts⟩, ?_⟩
    rw [emitEach]
    refine (hagain.mono fun hall => ?_).append (hagains.mono fun hall => ?_)
    · exact hall c (by simp)
    · exact fun d hd => hall d (by simp [hd])

theorem reencodes_tuple {items : List Codec} (h : ∀ c ∈ items, c.Reencodes) :
    (Codec.tuple items).Reencodes := by
  intro v data hread
  obtain ⟨vs, hvs, rfl⟩ := takes_tuple.mp hread
  obtain ⟨hexact, hagain⟩ := reencodes_fields h hvs
  refine ⟨⟨vs, rfl, hexact⟩, ?_⟩
  rw [emit_tuple (length_of_exactEach hexact)]
  exact hagain.mono fun hcanonical c hc => isCanonical_of_child hcanonical hc

theorem reencodes_struct {target : Target} {directions : Directions} {fields : List Codec}
    (hwrites : directions.writes = true) (hbuilds : target.rejection.isNone = true)
    (h : ∀ c ∈ fields, c.Reencodes) : (Codec.struct target directions fields).Reencodes := by
  intro v data hread
  obtain ⟨-, vs, hvs, hv⟩ := takes_struct.mp hread
  rw [build_eq hbuilds, Except.ok.injEq] at hv
  subst hv
  obtain ⟨hexact, hagain⟩ := reencodes_fields h hvs
  refine ⟨⟨vs, rfl, hexact⟩, ?_⟩
  rw [emit_struct hwrites (length_of_exactEach hexact)]
  exact hagain.mono fun hcanonical c hc => isCanonical_of_child hcanonical hc

/-- A value of a class that is a variant at several places is written at the last of them, with a tag
as wide and the same fields behind it. -/
theorem reencodes_variants {enum : ClassRef} {directions : Directions} {tag : TagWidth}
    {cases : List (Target × List Codec)} (hwrites : directions.writes = true)
    (hbuilds : ∀ case ∈ cases, case.1.rejection.isNone = true)
    (hsound : SoundNode (.variants enum directions tag cases))
    (h : ∀ case ∈ cases, ∀ c ∈ case.2, c.Reencodes) :
    (Codec.variants enum directions tag cases).Reencodes := by
  intro v data hread
  obtain ⟨-, i, case, vs, front, rest, rfl, htag, hi, hvs, hv⟩ := takes_variants.mp hread
  have hcase := List.mem_of_getElem? hi
  rw [build_eq (hbuilds case hcase), Except.ok.injEq] at hv
  subst hv
  obtain ⟨hexact, hagain⟩ := reencodes_fields (h case hcase) hvs
  refine ⟨exactCase_iff.mpr ⟨case, hcase, vs, rfl, exactEach_iff.mp hexact⟩, ?_⟩
  -- `j` is the place that the writer finds, `i` the one that was read
  obtain ⟨j, hvariant, hj⟩ := variantOf?_exact hcase hsound.2 vs
  rw [emit_variants hwrites hvariant hj (length_of_exactEach hexact)]
  refine Rewrites.append ?_ (hagain.mono fun hcanonical c hc =>
    isCanonical_of_child hcanonical (mem_children_of_case hcase hc))
  obtain ⟨hjlt, -⟩ := List.getElem?_eq_some_iff.mp hj
  obtain ⟨out, hout, hlen⟩ := exists_toBytes_emitTag hsound.1 hjlt
  refine ⟨out, hout, ?_, fun hcanonical => ?_⟩
  · rw [hlen, (toBytes_emitTag.mp htag).1]
  · have hnodup : (cases.map fun case => case.1.cls.ref.id).Nodup := by
      simpa [isCanonicalNode] using isCanonicalNode_of_isCanonical hcanonical
    -- with no class listed twice the two places are one
    have hij : j = i := by
      refine (List.getElem?_inj (by simpa using hjlt) hnodup).mp ?_
      rw [List.getElem?_map, List.getElem?_map, hi, hj]
    rw [hij, htag, Except.ok.injEq] at hout
    exact hout.symm

/-! ## All codecs -/

/-- **What is read is an exact value, and writing it takes no more bytes, and the same bytes where
every value has one form only.** -/
theorem reencodes {c : Codec} (hsound : c.Sound) (hregular : c.Regular) : c.Reencodes := by
  induction c using induct with
  | h c ih =>
    have ih' : ∀ d ∈ c.children, d.Reencodes := fun d hd =>
      ih d hd (hsound.child hd) (hregular.child hd)
    have hkeys := hregular.keys c (self_mem_parts c)
    have hbuilds := hregular.builds c (self_mem_parts c)
    have hreads : c.can Directions.reads = true := hregular.reads
    have hwrites : c.can Directions.writes = true := hregular.writes
    -- leaves have one form; of the others only sets and maps could have more
    cases c with
    | int format => exact (faithful_int format).reencodes
    | bool => exact faithful_bool.reencodes
    | accountAddress => exact faithful_accountAddress.reencodes
    | contractAddress => exact faithful_contractAddress.reencodes
    | bytes width order => exact (faithful_bytes width order).reencodes
    | text width order => exact (faithful_text width order).reencodes
    | unit target directions => exact (faithful_unit hwrites hreads hbuilds).reencodes
    | members enum hashable directions tag cases =>
      exact (faithful_members hwrites hreads hsound.node).reencodes
    | sequence tuples item width order => exact reencodes_sequence (ih' item (by simp [children]))
    | varTuple item => exact reencodes_varTuple (ih' item (by simp [children]))
    | optional item => exact reencodes_optional (ih' item (by simp [children]))
    | set frozen member width order =>
      have hmember : member ∈ (Codec.set frozen member width order).children := by simp [children]
      exact reencodes_set hkeys (hsound.child hmember) hsound.node (ih' member hmember)
    | map key value width order =>
      have hkey : key ∈ (Codec.map key value width order).children := by simp [children]
      exact reencodes_map hkeys (hsound.child hkey) hsound.node (ih' key hkey)
        (ih' value (by simp [children]))
    | tuple items => exact reencodes_tuple ih'
    | struct target directions fields =>
      exact reencodes_struct (Bool.and_eq_true_iff.mp hwrites).1 hbuilds ih'
    | variants enum directions tag cases =>
      exact reencodes_variants (Bool.and_eq_true_iff.mp hwrites).1 (List.all_eq_true.mp hbuilds)
        hsound.node fun case hcase c hc => ih' c (mem_children_of_case hcase hc)

end Codec

end ContractKit
