import ContractKit.Proofs.Codec.Seen
import Mathlib.Data.List.Perm.Basic

/-!
# `Proofs/Codec/Alike.lean`: values with the same bytes

`Alike` says what two values have in common of which a codec writes the same: all that it writes, and
no more. Every part has an extent that its codec alone decides, so equal bytes have equal parts, and two
values with the same bytes are alike whatever their classes are (`alike_of_emit`). What an address has
beyond its two parts and what an instance has beyond the fields of the declared class is no part, and
alike values may differ in it. Plain values have nothing of the kind, and those that are alike are equal
(`beq_of_alike`).
-/

set_option autoImplicit false

namespace ContractKit

namespace Value

theorem beq_of_members? {v w : Value} {vs ws : List Value} (hv : v.members? = some vs)
    (hw : w.members? = some ws) : v.beq w = (vs.length == ws.length && allAmong vs ws) := by
  cases v with
  | set _ | frozenset _ =>
    cases hv
    simp only [beq, hw]
  | _ => cases hv

/-- Two sets are equal when the members of the one stand opposite equal ones of the other. -/
theorem beq_of_forall₂ {v w : Value} {vs ws ws' : List Value} (hv : v.members? = some vs)
    (hw : w.members? = some ws) (h : List.Forall₂ (fun x y => x.beq y = true) vs ws')
    (hperm : ws'.Perm ws) : v.beq w = true := by
  rw [beq_of_members? hv hw, Bool.and_eq_true, beq_iff_eq, allAmong_iff]
  exact ⟨h.length_eq.trans hperm.length_eq, fun x hx => exists_of_forall₂_perm h hperm hx⟩

theorem beqAll_of_forall₂ {xs ys : List Value} (h : List.Forall₂ (fun x y => x.beq y = true) xs ys) :
    beqAll xs ys = true := by
  induction h with
  | nil => rw [beqAll]
  | cons hxy _ ih =>
    rw [beqAll, hxy, ih]
    rfl

/-- Values that are equal to one member of an enumeration are equal. -/
theorem beq_of_member {enum : ClassRef} {m : Member} {v w : Value}
    (hv : (m.value enum).beq v = true) (hw : (m.value enum).beq w = true) : v.beq w = true := by
  cases hnumber : m.number with
  | some n =>
    rw [Member.value, hnumber, beq] at hv hw
    exact (beq_of_number? (beq_iff_eq.mp hv) (beq_iff_eq.mp hw)).mpr rfl
  | none =>
    have hmember : ∀ {u : Value}, (m.value enum).beq u = true →
        ∃ enum', u = .member enum' m.name Option.none ∧ enum'.id = enum.id := by
      intro u hu
      rw [Member.value, hnumber, beq.eq_def] at hu
      simp only at hu
      split at hu
      · rw [Bool.and_eq_true, beq_iff_eq, beq_iff_eq] at hu
        exact ⟨_, by rw [hu.2], hu.1.symm⟩
      · cases hu
    obtain ⟨enum', rfl, hid⟩ := hmember hv
    obtain ⟨enum'', rfl, hid'⟩ := hmember hw
    simp [beq, hid, hid']

end Value

namespace Codec

open LittleEndian
open Bytes (Pieces)

/-- The two parts of an address that are written. -/
def addressParts? : Value → Option (Option Int × Option Int)
  | .record _ (index :: subindex :: _) => some (index.integer?, subindex.integer?)
  | _ => none

mutual

/-- Whether two values have in common what a codec writes of them. -/
def Alike : Codec → Value → Value → Prop
  | .int _, v, w => ∃ n, v.integer? = some n ∧ w.integer? = some n
  | .contractAddress, v, w =>
    ∃ i j, addressParts? v = some (some i, some j) ∧ addressParts? w = some (some i, some j)
  | .sequence tuples item .., v, w =>
    ∃ vs ws, itemsOf? tuples v = some vs ∧ itemsOf? tuples w = some ws ∧
      List.Forall₂ (Alike item) vs ws
  | .set _ member .., v, w =>
    ∃ vs ws ws', v.members? = some vs ∧ w.members? = some ws ∧
      List.Forall₂ (Alike member) vs ws' ∧ ws'.Perm ws
  | .map key value .., v, w =>
    ∃ es fs fs', v = .dict es ∧ w = .dict fs ∧
      List.Forall₂ (fun e f => Alike key e.1 f.1 ∧ Alike value e.2 f.2) es fs' ∧ fs'.Perm fs
  | .optional item, v, w =>
    (v = .none ∧ w = .none) ∨ (v ≠ .none ∧ w ≠ .none ∧ Alike item v w)
  | .tuple items, v, w =>
    ∃ vs ws, v.tupleItems? = some vs ∧ w.tupleItems? = some ws ∧ AlikeEach items vs ws
  | .varTuple item, v, w =>
    ∃ vs ws, v.tupleItems? = some vs ∧ w.tupleItems? = some ws ∧ List.Forall₂ (Alike item) vs ws
  | .struct target _ fields, v, w =>
    ∃ vs ws, fieldItems target fields v = .ok vs ∧ fieldItems target fields w = .ok ws ∧
      AlikeEach fields vs ws
  | .unit .., _, _ => True
  | .variants _ _ _ cases, v, w =>
    ∃ i, variantOf? cases v = some i ∧ variantOf? cases w = some i ∧ AlikeCase cases i v w
  | .members enum _ _ _ cases, v, w =>
    ∃ i, memberOf? enum cases v = some i ∧ memberOf? enum cases w = some i
  | .bool, v, w | .accountAddress, v, w | .bytes .., v, w | .text .., v, w => v = w

/-- The same for fields, as many as there are codecs. -/
def AlikeEach : List Codec → List Value → List Value → Prop
  | [], _, _ => True
  | c :: cs, v :: vs, w :: ws => Alike c v w ∧ AlikeEach cs vs ws
  | _ :: _, _, _ => False

/-- The same for two values of the variant at a place. -/
def AlikeCase : List (Target × List Codec) → Nat → Value → Value → Prop
  | [], _, _, _ => False
  | (target, fields) :: _, 0, v, w =>
    ∃ vs ws, fieldItems target fields v = .ok vs ∧ fieldItems target fields w = .ok ws ∧
      AlikeEach fields vs ws
  | _ :: rest, i + 1, v, w => AlikeCase rest i v w

end

theorem alikeCase_iff {target : Target} {fields : List Codec} {v w : Value} :
    ∀ {cases : List (Target × List Codec)} {i : Nat}, cases[i]? = some (target, fields) →
      (AlikeCase cases i v w ↔
        ∃ vs ws, fieldItems target fields v = .ok vs ∧ fieldItems target fields w = .ok ws ∧
          AlikeEach fields vs ws)
  | [], _, h => by cases h
  | (_, _) :: _, 0, h => by
    cases h
    exact Iff.rfl
  | _ :: rest, i + 1, h => by
    rw [AlikeCase]
    exact alikeCase_iff (by simpa using h)

/-! ## Equal bytes have equal parts -/

/-- Two parts that are written the same, by one codec. -/
def SameBytes (p q : Codec × Value) : Prop :=
  p.1 = q.1 ∧ ∃ data, (p.1.emit p.2).toBytes = .ok data ∧ (q.1.emit q.2).toBytes = .ok data

/-- **A codec alone decides where a value ends**, whatever stands behind it. Both strings are skipped by
the same program, which takes the same of a string whoever wrote it. -/
theorem extent_of_emit {c : Codec} (hsound : c.Sound) {v w : Value} {x y r s : Bytes}
    (hv : (c.emit v).toBytes = .ok x) (hw : (c.emit w).toBytes = .ok y) (h : x ++ r = y ++ s) :
    x = y ∧ r = s := by
  have hx : c.walk.run (x ++ r) = (.ok (), r) :=
    Read.run_eq_ok_iff.mpr ⟨x, rfl, takes_walk_of_emit hsound hv⟩
  have hy : c.walk.run (y ++ s) = (.ok (), s) :=
    Read.run_eq_ok_iff.mpr ⟨y, rfl, takes_walk_of_emit hsound hw⟩
  rw [h, hy, Prod.mk.injEq] at hx
  obtain ⟨-, rfl⟩ := hx
  exact ⟨List.append_cancel_right h, rfl⟩

/-- So the same bytes that were written by the same codecs are cut at the same places. -/
theorem forall₂_of_pieces : ∀ {ps qs : List (Codec × Value)} {data : Bytes},
    (∀ p ∈ ps, p.1.Sound) → ps.map (·.1) = qs.map (·.1) →
      Pieces (fun p d => (p.1.emit p.2).toBytes = .ok d) ps data →
      Pieces (fun p d => (p.1.emit p.2).toBytes = .ok d) qs data → List.Forall₂ SameBytes ps qs
  | [], [], _, _, _, _, _ => .nil
  | (c, v) :: ps, (d, w) :: qs, data, hsound, hcodecs, ⟨x, r, hdata, hv, hps⟩,
      ⟨y, s, hdata', hw, hqs⟩ => by
    rw [List.map_cons, List.map_cons, List.cons.injEq] at hcodecs
    obtain ⟨hcd, hcodecs⟩ := hcodecs
    have hcd : c = d := hcd
    subst hcd
    obtain ⟨hc, hsound⟩ := List.forall_mem_cons.mp hsound
    obtain ⟨rfl, rfl⟩ := extent_of_emit hc hv hw (hdata.symm.trans hdata')
    exact .cons ⟨rfl, x, hv, hw⟩ (forall₂_of_pieces hsound hcodecs hps hqs)

theorem codecs_of_paired : ∀ {cs : List Codec} {vs : List Value} {ps : List (Codec × Value)},
    paired? cs vs = some ps → ps.map (·.1) = cs
  | [], _, _, h => by
    cases h
    rfl
  | c :: cs, v :: vs, _, h => by
    obtain ⟨qs, hqs, rfl⟩ := Option.map_eq_some_iff.mp h
    rw [List.map_cons, codecs_of_paired hqs]

theorem codecs_of_items (item : Codec) (vs : List Value) :
    (vs.map (item, ·)).map (·.1) = List.replicate vs.length item := by
  rw [List.map_map]
  exact List.map_const'

theorem codecs_of_entries (key value : Codec) (es : List (Value × Value)) :
    (es.flatMap (entryParts key value)).map (·.1) =
      (List.replicate es.length [key, value]).flatten := by
  induction es with
  | nil => rfl
  | cons e es ih =>
    rw [List.flatMap_cons, List.map_append, ih]
    rfl

section

variable {c : Codec} {v w : Value} {ps qs : List (Codec × Value)}

/-- Counts of one width are told apart, whatever stands behind them. -/
theorem count_of_toBytes {width : PrefixWidth} {n m : Nat} {x y r s : Bytes}
    (hx : (Emit.count width n).toBytes = .ok x) (hy : (Emit.count width m).toBytes = .ok y)
    (h : x ++ r = y ++ s) : n = m ∧ x = y ∧ r = s := by
  obtain ⟨hn, rfl⟩ := Emit.toBytes_count.mp hx
  obtain ⟨hm, rfl⟩ := Emit.toBytes_count.mp hy
  obtain ⟨hdigits, hrest⟩ := List.append_inj h (by rw [length_digits, length_digits])
  refine ⟨?_, hdigits, hrest⟩
  rw [← ofDigits_digits (PrefixWidth.le_maxCount_iff.mp hn), hdigits,
    ofDigits_digits (PrefixWidth.le_maxCount_iff.mp hm)]

/-- So are tags. -/
theorem tag_of_toBytes {tag : TagWidth} {i j : Nat} {x y r s : Bytes}
    (hx : (emitTag tag i).toBytes = .ok x) (hy : (emitTag tag j).toBytes = .ok y)
    (h : x ++ r = y ++ s) : i = j ∧ x = y ∧ r = s := by
  obtain ⟨hlen, rfl⟩ := toBytes_emitTag.mp hx
  obtain ⟨hlen', rfl⟩ := toBytes_emitTag.mp hy
  obtain ⟨rfl, hrest⟩ := List.append_inj h (hlen.trans hlen'.symm)
  exact ⟨rfl, rfl, hrest⟩

/-- What a value is written as: a head, and what it holds behind it. To compare the bytes of two values
of one codec, the heads are compared first, and they decide where what is held begins (`HeadDecides`).
-/
structure Cut (c : Codec) (v : Value) (ps : List (Codec × Value)) (front rest : Bytes) : Prop where
  parts : written? c v = some ps
  head : (c.head v).toBytes = .ok front
  /-- Nothing stands behind the head of a value that holds nothing. -/
  bare : ps = [] → rest = []

/-- Two heads of a codec before the same bytes are the same, and what is held behind them has the same
codecs. -/
def HeadDecides (c : Codec) : Prop :=
  ∀ ⦃v w : Value⦄ ⦃ps qs : List (Codec × Value)⦄ ⦃x y r s : Bytes⦄, Cut c v ps x r → Cut c w qs y s →
    x ++ r = y ++ s → x = y ∧ r = s ∧ ps.map (·.1) = qs.map (·.1)

/-! One lemma for the codecs that delegate to none, and one for each kind of codec that does. -/

section Heads

variable {tuples frozen : Bool} {item member key value : Codec} {items : List Codec}
  {width : PrefixWidth} {order : OrderPolicy}

/-- A codec that delegates to none writes nothing but the head. -/
theorem headDecides_leaf (hleaf : ∀ v, written? c v = some []) : c.HeadDecides := by
  intro v w ps qs x y r s hv hw h
  obtain rfl := Option.some.inj (hv.parts.symm.trans (hleaf v))
  obtain rfl := Option.some.inj (hw.parts.symm.trans (hleaf w))
  rw [hv.bare rfl, hw.bare rfl, List.append_nil, List.append_nil] at h
  exact ⟨h, (hv.bare rfl).trans (hw.bare rfl).symm, rfl⟩

/-- Items of one codec stand behind their number. -/
theorem same_of_counted {vs ws : List Value} {n m : Nat} {x y r s : Bytes}
    (hx : (Emit.count width n).toBytes = .ok x) (hy : (Emit.count width m).toBytes = .ok y)
    (hvs : vs.length = n) (hws : ws.length = m) (h : x ++ r = y ++ s) :
    x = y ∧ r = s ∧ (vs.map (item, ·)).map (·.1) = (ws.map (item, ·)).map (·.1) := by
  obtain ⟨hlen, hxy, hrs⟩ := count_of_toBytes hx hy h
  rw [codecs_of_items, codecs_of_items, hvs, hws, hlen]
  exact ⟨hxy, hrs, rfl⟩

theorem headDecides_sequence : (Codec.sequence tuples item width order).HeadDecides := by
  intro v w ps qs x y r s hv hw h
  obtain ⟨vs, hvs, rfl⟩ := holdings_sequence_eq_some.mp hv.parts
  obtain ⟨ws, hws, rfl⟩ := holdings_sequence_eq_some.mp hw.parts
  exact same_of_counted (head_sequence hvs ▸ hv.head) (head_sequence hws ▸ hw.head) rfl rfl h

theorem headDecides_varTuple : (Codec.varTuple item).HeadDecides := by
  intro v w ps qs x y r s hv hw h
  obtain ⟨vs, hvs, rfl⟩ := holdings_varTuple_eq_some.mp hv.parts
  obtain ⟨ws, hws, rfl⟩ := holdings_varTuple_eq_some.mp hw.parts
  exact same_of_counted (head_varTuple hvs ▸ hv.head) (head_varTuple hws ▸ hw.head) rfl rfl h

theorem headDecides_set : (Codec.set frozen member width order).HeadDecides := by
  intro v w ps qs x y r s hv hw h
  obtain ⟨vs, vs', hvs, hsorted, rfl⟩ := holdings_set_eq_some.mp hv.parts
  obtain ⟨ws, ws', hws, hsorted', rfl⟩ := holdings_set_eq_some.mp hw.parts
  exact same_of_counted (head_set hvs ▸ hv.head) (head_set hws ▸ hw.head)
    (Value.perm_of_sortedBy? hsorted).length_eq (Value.perm_of_sortedBy? hsorted').length_eq h

theorem headDecides_map : (Codec.map key value width order).HeadDecides := by
  intro v w ps qs x y r s hv hw h
  obtain ⟨es, es', rfl, hsorted, rfl⟩ := holdings_map_eq_some.mp hv.parts
  obtain ⟨fs, fs', rfl, hsorted', rfl⟩ := holdings_map_eq_some.mp hw.parts
  obtain ⟨hlen, hxy, hrs⟩ := count_of_toBytes hv.head hw.head h
  rw [codecs_of_entries, codecs_of_entries, (Value.perm_of_sortedBy? hsorted).length_eq,
    (Value.perm_of_sortedBy? hsorted').length_eq, hlen]
  exact ⟨hxy, hrs, rfl⟩

/-- One byte tells an absent value from one that is there. -/
theorem headDecides_optional : (Codec.optional item).HeadDecides := by
  intro v w ps qs x y r s hv hw h
  have habsent : ∀ {z : Bytes}, ((Codec.optional item).head .none).toBytes = .ok z → z = [0] :=
    fun hz => Emit.toBytes_byte.mp hz
  have hpresent : ∀ {u : Value} {z : Bytes}, u ≠ .none →
      ((Codec.optional item).head u).toBytes = .ok z → z = [1] :=
    fun hu hz => Emit.toBytes_byte.mp (head_optional hu ▸ hz)
  rcases holdings_optional_eq_some.mp hv.parts with ⟨rfl, rfl⟩ | ⟨hne, rfl⟩ <;>
    rcases holdings_optional_eq_some.mp hw.parts with ⟨rfl, rfl⟩ | ⟨hne', rfl⟩
  · obtain rfl := habsent hv.head
    obtain rfl := habsent hw.head
    exact ⟨rfl, List.append_cancel_left h, rfl⟩
  · rw [habsent hv.head, hpresent hne' hw.head] at h
    cases h
  · rw [hpresent hne hv.head, habsent hw.head] at h
    cases h
  · obtain rfl := hpresent hne hv.head
    obtain rfl := hpresent hne' hw.head
    exact ⟨rfl, List.append_cancel_left h, rfl⟩

/-- Fields have no head of their own, and are as many as there are codecs. -/
theorem same_of_paired {vs ws : List Value} {ps qs : List (Codec × Value)} {x y r s : Bytes}
    (hx : Emit.nothing.toBytes = .ok x) (hy : Emit.nothing.toBytes = .ok y)
    (hps : paired? items vs = some ps) (hqs : paired? items ws = some qs) (h : x ++ r = y ++ s) :
    x = y ∧ r = s ∧ ps.map (·.1) = qs.map (·.1) := by
  rw [Emit.toBytes_nothing, Except.ok.injEq] at hx hy
  subst hx hy
  exact ⟨rfl, h, (codecs_of_paired hps).trans (codecs_of_paired hqs).symm⟩

theorem headDecides_tuple : (Codec.tuple items).HeadDecides := by
  intro v w ps qs x y r s hv hw h
  obtain ⟨vs, -, hps⟩ := holdings_tuple_eq_some.mp hv.parts
  obtain ⟨ws, -, hqs⟩ := holdings_tuple_eq_some.mp hw.parts
  exact same_of_paired hv.head hw.head hps hqs h

theorem headDecides_struct {target : Target} {directions : Directions} :
    (Codec.struct target directions items).HeadDecides := by
  intro v w ps qs x y r s hv hw h
  obtain ⟨vs, -, hps⟩ := shownFields_eq_some.mp hv.parts
  obtain ⟨ws, -, hqs⟩ := shownFields_eq_some.mp hw.parts
  exact same_of_paired hv.head hw.head hps hqs h

/-- The tag tells the variant, and that the codecs of the fields. -/
theorem headDecides_variants {enum : ClassRef} {directions : Directions} {tag : TagWidth}
    {cases : List (Target × List Codec)} :
    (Codec.variants enum directions tag cases).HeadDecides := by
  intro v w ps qs x y r s hv hw h
  obtain ⟨i, case, hi, hcase, hps⟩ := holdings_variants_eq_some.mp hv.parts
  obtain ⟨j, case', hj, hcase', hqs⟩ := holdings_variants_eq_some.mp hw.parts
  have hx := hv.head
  have hy := hw.head
  rw [head, hi] at hx
  rw [head, hj] at hy
  obtain ⟨rfl, hxy, hrs⟩ := tag_of_toBytes hx hy h
  obtain rfl := Option.some.inj (hcase.symm.trans hcase')
  obtain ⟨vs, -, hps⟩ := shownFields_eq_some.mp hps
  obtain ⟨ws, -, hqs⟩ := shownFields_eq_some.mp hqs
  exact ⟨hxy, hrs, (codecs_of_paired hps).trans (codecs_of_paired hqs).symm⟩

/-- **The head of a value decides where it ends and which codecs follow it.** There is a lemma for each
kind of codec that holds other values; all the others hold none. -/
theorem headDecides (c : Codec) : c.HeadDecides := by
  cases c with
  | int _ | bool | accountAddress | contractAddress | bytes _ _ | text _ _ | unit _ _
  | members _ _ _ _ _ => exact headDecides_leaf fun _ => rfl
  | sequence _ _ _ _ => exact headDecides_sequence
  | varTuple _ => exact headDecides_varTuple
  | set _ _ _ _ => exact headDecides_set
  | map _ _ _ _ => exact headDecides_map
  | optional _ => exact headDecides_optional
  | tuple _ => exact headDecides_tuple
  | struct _ _ _ => exact headDecides_struct
  | variants _ _ _ _ => exact headDecides_variants

end Heads

/-- **Two values with the same bytes have the same head, and what they hold has the same bytes**, part
by part. -/
theorem parts_of_emit {data : Bytes} (hsound : c.Sound) (hv : (c.emit v).toBytes = .ok data)
    (hw : (c.emit w).toBytes = .ok data) :
    (∃ front, (c.head v).toBytes = .ok front ∧ (c.head w).toBytes = .ok front) ∧
      ∃ ps qs, written? c v = some ps ∧ written? c w = some qs ∧ List.Forall₂ SameBytes ps qs := by
  obtain ⟨-, -, ps, x, r, hps, rfl, hx, hr⟩ := toBytes_emit_eq_ok.mp hv
  obtain ⟨-, -, qs, y, s, hqs, hdata, hy, hs⟩ := toBytes_emit_eq_ok.mp hw
  obtain ⟨rfl, rfl, hcodecs⟩ := headDecides c ⟨hps, hx, by rintro rfl; exact hr⟩
    ⟨hqs, hy, by rintro rfl; exact hs⟩ hdata
  refine ⟨⟨x, hx, hy⟩, ps, qs, hps, hqs, forall₂_of_pieces ?_ hcodecs hr hs⟩
  intro p hp
  exact hsound.child (mem_children_of_holdings hps p hp)

end

/-! ## Values with the same bytes are alike -/

/-- Two parts of one codec whose values are alike. -/
def AlikePart (p q : Codec × Value) : Prop := p.1 = q.1 ∧ Alike p.1 p.2 q.2

section

variable {c : Codec} {v w : Value}

theorem alike_items {item : Codec} {vs ws : List Value}
    (h : List.Forall₂ AlikePart (vs.map (item, ·)) (ws.map (item, ·))) :
    List.Forall₂ (Alike item) vs ws := by
  rw [List.forall₂_map_left_iff, List.forall₂_map_right_iff] at h
  exact h.imp fun _ _ hxy => hxy.2

theorem alike_entries {key value : Codec} : ∀ {es fs : List (Value × Value)},
    List.Forall₂ AlikePart (es.flatMap (entryParts key value)) (fs.flatMap (entryParts key value)) →
      List.Forall₂ (fun e f => Alike key e.1 f.1 ∧ Alike value e.2 f.2) es fs
  | [], [], _ => .nil
  | [], _ :: _, h => by cases h
  | _ :: _, [], h => by cases h
  | e :: es, f :: fs, h => by
    rw [List.flatMap_cons, List.flatMap_cons] at h
    obtain ⟨hkey, hvalue, hrest⟩ : AlikePart (key, e.1) (key, f.1) ∧
        AlikePart (value, e.2) (value, f.2) ∧ _ := by
      simpa only [entryParts, List.cons_append, List.nil_append, List.forall₂_cons] using h
    exact .cons ⟨hkey.2, hvalue.2⟩ (alike_entries hrest)

theorem alikeEach_of_paired : ∀ {cs : List Codec} {vs ws : List Value}
    {ps qs : List (Codec × Value)}, paired? cs vs = some ps → paired? cs ws = some qs →
      List.Forall₂ AlikePart ps qs → AlikeEach cs vs ws
  | [], _, _, _, _, _, _, _ => trivial
  | c :: cs, v :: vs, w :: ws, _, _, hps, hqs, h => by
    obtain ⟨ps, hps', rfl⟩ := Option.map_eq_some_iff.mp hps
    obtain ⟨qs, hqs', rfl⟩ := Option.map_eq_some_iff.mp hqs
    obtain ⟨hvw, h⟩ := List.forall₂_cons.mp h
    exact ⟨hvw.2, alikeEach_of_paired hps' hqs' h⟩

theorem alike_fields {target : Target} {fields : List Codec} {ps qs : List (Codec × Value)}
    (hps : shownFields? target fields v = some ps) (hqs : shownFields? target fields w = some qs)
    (h : List.Forall₂ AlikePart ps qs) :
    ∃ vs ws, fieldItems target fields v = .ok vs ∧ fieldItems target fields w = .ok ws ∧
      AlikeEach fields vs ws := by
  obtain ⟨vs, hvs, hps⟩ := shownFields_eq_some.mp hps
  obtain ⟨ws, hws, hqs⟩ := shownFields_eq_some.mp hqs
  exact ⟨vs, ws, hvs, hws, alikeEach_of_paired hps hqs h⟩

/-- What is alike when it is put in order is alike in some order. -/
theorem exists_alike_perm {α : Type} {R : α → α → Prop} {as bs as' bs' : List α}
    (has : as'.Perm as) (hbs : bs'.Perm bs) (h : List.Forall₂ R as' bs') :
    ∃ us, List.Forall₂ R as us ∧ us.Perm bs := by
  obtain ⟨us, hus, hperm⟩ := List.perm_comp_forall₂ has.symm h
  exact ⟨us, hus, hperm.trans hbs⟩

theorem eq_of_toBytes_int {format : Format} {n k : Int} {data : Bytes}
    (hn : (Emit.int format n).toBytes = .ok data) (hk : (Emit.int format k).toBytes = .ok data) :
    n = k := by
  rw [Emit.toBytes_int, Format.encode?_eq_some_iff] at hn hk
  exact hn.2.symm.trans hk.2

/-- Where reading is writing backwards, bytes are those of one value. -/
theorem Faithful.eq_of_emit (h : c.Faithful) {data : Bytes} (hv : c.Exact v) (hw : c.Exact w)
    (hdata : (c.emit v).toBytes = .ok data) (hdata' : (c.emit w).toBytes = .ok data) : v = w := by
  have hread := Read.runAll_eq_ok_iff.mpr ((h v data).mpr ⟨hv, hdata⟩)
  rw [Read.runAll_eq_ok_iff.mpr ((h w data).mpr ⟨hw, hdata'⟩), Except.ok.injEq] at hread
  exact hread.symm

/-- The parts of an address that is written: two numbers, of eight bytes each. -/
theorem addressParts_of_emit {data : Bytes}
    (h : (Codec.contractAddress.emit v).toBytes = .ok data) :
    ∃ i j x y, addressParts? v = some (some i, some j) ∧ data = x ++ y ∧ x.length = 8 ∧
      (Emit.int ⟨8, false⟩ i).toBytes = .ok x ∧ (Emit.int ⟨8, false⟩ j).toBytes = .ok y := by
  obtain ⟨haccepts, h⟩ := Emit.toBytes_after_eq_ok.mp h
  have hpart : ∀ {items : List Value} {i : Nat} {x : Bytes}, items.all isAddressPart = true →
      (emitAddressPart items i).toBytes = .ok x → ∃ part n, items[i]? = some part ∧
        part.integer? = some n ∧ (Emit.int ⟨8, false⟩ n).toBytes = .ok x := by
    intro items i x hall hx
    unfold emitAddressPart at hx
    split at hx
    · exact absurd hx Emit.toBytes_fail_ne
    · rename_i part hget
      have hmem := List.all_eq_true.mp hall part (List.mem_of_getElem? hget)
      obtain ⟨n, hn, -⟩ := isAddressPart_iff.mp hmem
      rw [hn] at hx
      exact ⟨part, n, hget, hn, hx⟩
  -- the check lets records through only, and writing asks for the two parts one by one
  cases v with
  | record cls items =>
    simp only [accepts] at haccepts
    split at haccepts
    · split at haccepts
      · rename_i hall
        obtain ⟨x, y, rfl, hx, hy⟩ := Emit.toBytes_append_eq_ok.mp h
        obtain ⟨index, i, hindex, hi, hx⟩ := hpart hall hx
        obtain ⟨subindex, j, hsubindex, hj, hy⟩ := hpart hall hy
        have hlen := (Format.encode?_eq_some_iff.mp (Emit.toBytes_int.mp hx)).1
        refine ⟨i, j, x, y, ?_, rfl, hlen, hx, hy⟩
        -- a third part may follow, which is not written
        rcases items with _ | ⟨a, _ | ⟨b, rest⟩⟩
        · cases hindex
        · cases hsubindex
        · cases hindex
          cases hsubindex
          rw [addressParts?, hi, hj]
      · cases haccepts
    · cases haccepts
  | _ => cases haccepts

/-! One lemma for each kind of codec that delegates to others: what is alike in the parts of two values
is alike in the values. -/

section Containers

variable {tuples frozen : Bool} {item member key value : Codec} {items : List Codec}
  {width : PrefixWidth} {order : OrderPolicy} {ps qs : List (Codec × Value)}

theorem alike_sequence (hps : written? (.sequence tuples item width order) v = some ps)
    (hqs : written? (.sequence tuples item width order) w = some qs)
    (h : List.Forall₂ AlikePart ps qs) : (Codec.sequence tuples item width order).Alike v w := by
  obtain ⟨vs, hvs, rfl⟩ := holdings_sequence_eq_some.mp hps
  obtain ⟨ws, hws, rfl⟩ := holdings_sequence_eq_some.mp hqs
  exact ⟨vs, ws, hvs, hws, alike_items h⟩

theorem alike_varTuple (hps : written? (.varTuple item) v = some ps)
    (hqs : written? (.varTuple item) w = some qs) (h : List.Forall₂ AlikePart ps qs) :
    (Codec.varTuple item).Alike v w := by
  obtain ⟨vs, hvs, rfl⟩ := holdings_varTuple_eq_some.mp hps
  obtain ⟨ws, hws, rfl⟩ := holdings_varTuple_eq_some.mp hqs
  exact ⟨vs, ws, hvs, hws, alike_items h⟩

theorem alike_set (hps : written? (.set frozen member width order) v = some ps)
    (hqs : written? (.set frozen member width order) w = some qs)
    (h : List.Forall₂ AlikePart ps qs) : (Codec.set frozen member width order).Alike v w := by
  obtain ⟨vs, vs', hvs, hsorted, rfl⟩ := holdings_set_eq_some.mp hps
  obtain ⟨ws, ws', hws, hsorted', rfl⟩ := holdings_set_eq_some.mp hqs
  obtain ⟨us, hus, hperm⟩ := exists_alike_perm (Value.perm_of_sortedBy? hsorted)
    (Value.perm_of_sortedBy? hsorted') (alike_items h)
  exact ⟨vs, ws, us, hvs, hws, hus, hperm⟩

theorem alike_map (hps : written? (.map key value width order) v = some ps)
    (hqs : written? (.map key value width order) w = some qs) (h : List.Forall₂ AlikePart ps qs) :
    (Codec.map key value width order).Alike v w := by
  obtain ⟨es, es', rfl, hsorted, rfl⟩ := holdings_map_eq_some.mp hps
  obtain ⟨fs, fs', rfl, hsorted', rfl⟩ := holdings_map_eq_some.mp hqs
  obtain ⟨us, hus, hperm⟩ := exists_alike_perm (Value.perm_of_sortedBy? hsorted)
    (Value.perm_of_sortedBy? hsorted') (alike_entries h)
  exact ⟨es, fs, us, rfl, rfl, hus, hperm⟩

/-- Of two values with parts that are alike both are there or neither is. -/
theorem alike_optional (hps : written? (.optional item) v = some ps)
    (hqs : written? (.optional item) w = some qs) (h : List.Forall₂ AlikePart ps qs) :
    (Codec.optional item).Alike v w := by
  rcases holdings_optional_eq_some.mp hps with ⟨rfl, rfl⟩ | ⟨hne, rfl⟩ <;>
    rcases holdings_optional_eq_some.mp hqs with ⟨rfl, rfl⟩ | ⟨hne', rfl⟩
  · exact Or.inl ⟨rfl, rfl⟩
  · cases h
  · cases h
  · obtain ⟨⟨-, hitem⟩, -⟩ := List.forall₂_cons.mp h
    exact Or.inr ⟨hne, hne', hitem⟩

theorem alike_tuple (hps : written? (.tuple items) v = some ps)
    (hqs : written? (.tuple items) w = some qs) (h : List.Forall₂ AlikePart ps qs) :
    (Codec.tuple items).Alike v w := by
  obtain ⟨vs, hvs, hps⟩ := holdings_tuple_eq_some.mp hps
  obtain ⟨ws, hws, hqs⟩ := holdings_tuple_eq_some.mp hqs
  exact ⟨vs, ws, hvs, hws, alikeEach_of_paired hps hqs h⟩

section Sums

variable {enum : ClassRef} {directions : Directions} {tag : TagWidth} {front : Bytes}

/-- Two values with the same tag are values of one variant. -/
theorem alike_variants {cases : List (Target × List Codec)}
    (hv : ((Codec.variants enum directions tag cases).head v).toBytes = .ok front)
    (hw : ((Codec.variants enum directions tag cases).head w).toBytes = .ok front)
    (hps : written? (.variants enum directions tag cases) v = some ps)
    (hqs : written? (.variants enum directions tag cases) w = some qs)
    (h : List.Forall₂ AlikePart ps qs) : (Codec.variants enum directions tag cases).Alike v w := by
  obtain ⟨i, case, hi, hcase, hps⟩ := holdings_variants_eq_some.mp hps
  obtain ⟨j, case', hj, hcase', hqs⟩ := holdings_variants_eq_some.mp hqs
  rw [head, hi] at hv
  rw [head, hj] at hw
  obtain ⟨rfl, -, -⟩ := tag_of_toBytes hv hw rfl (r := [])
  obtain rfl := Option.some.inj (hcase.symm.trans hcase')
  exact ⟨i, hi, hj, (alikeCase_iff hcase).mpr (alike_fields hps hqs h)⟩

theorem alike_members {hashable : Bool} {cases : List Member}
    (hv : ((Codec.members enum hashable directions tag cases).head v).toBytes = .ok front)
    (hw : ((Codec.members enum hashable directions tag cases).head w).toBytes = .ok front)
    (haccepts : accepts (.members enum hashable directions tag cases) v = .ok ())
    (haccepts' : accepts (.members enum hashable directions tag cases) w = .ok ()) :
    (Codec.members enum hashable directions tag cases).Alike v w := by
  obtain ⟨-, i, hi⟩ := accepts_members.mp haccepts
  obtain ⟨-, j, hj⟩ := accepts_members.mp haccepts'
  rw [head, hi] at hv
  rw [head, hj] at hw
  obtain ⟨rfl, -, -⟩ := tag_of_toBytes hv hw rfl (r := [])
  exact ⟨i, hi, hj⟩

end Sums

end Containers

theorem alike_contractAddress {data : Bytes}
    (hv : (Codec.contractAddress.emit v).toBytes = .ok data)
    (hw : (Codec.contractAddress.emit w).toBytes = .ok data) : Codec.contractAddress.Alike v w := by
  obtain ⟨i, j, x, y, hparts, rfl, hlen, hx, hy⟩ := addressParts_of_emit hv
  obtain ⟨i', j', x', y', hparts', hdata, hlen', hx', hy'⟩ := addressParts_of_emit hw
  obtain ⟨rfl, rfl⟩ := List.append_inj hdata (hlen.trans hlen'.symm)
  obtain rfl := eq_of_toBytes_int hx hx'
  obtain rfl := eq_of_toBytes_int hy hy'
  exact ⟨i, j, hparts, hparts'⟩

/-- **Values with the same bytes are alike**: what is written of them is the same, all the way down. By
induction over the codec: the heads are the same, so what is held is cut at the same places, and part by
part the bytes are the same again. -/
theorem alike_of_emit (hsound : c.Sound) : ∀ {v w : Value} {data : Bytes},
    (c.emit v).toBytes = .ok data → (c.emit w).toBytes = .ok data → c.Alike v w := by
  induction c using induct with
  | h c ih =>
    intro v w data hv hw
    obtain ⟨haccepts, -, -⟩ := written_of_emit hv
    obtain ⟨haccepts', -, -⟩ := written_of_emit hw
    obtain ⟨⟨front, hfront, hfront'⟩, ps, qs, hps, hqs, hsame⟩ := parts_of_emit hsound hv hw
    have hparts : List.Forall₂ AlikePart ps qs := by
      have hmem := (List.forall₂_and_left _ _).mpr ⟨mem_children_of_holdings hps, hsame⟩
      refine hmem.imp fun p q ⟨hd, hpq, data', hp, hq⟩ => ⟨hpq, ?_⟩
      exact ih p.1 hd (hsound.child hd) hp (hpq ▸ hq)
    -- what is left is the node itself, of which the head tells all that is written
    cases c with
    | int format =>
      obtain ⟨n, hn, -⟩ := accepts_integer.mp haccepts
      obtain ⟨k, hk, -⟩ := accepts_integer.mp haccepts'
      rw [head, hn, Option.getD_some] at hfront
      rw [head, hk, Option.getD_some] at hfront'
      exact ⟨n, hn, eq_of_toBytes_int hfront hfront' ▸ hk⟩
    | contractAddress => exact alike_contractAddress hv hw
    | bool =>
      cases v <;> cases haccepts
      cases w <;> cases haccepts'
      exact faithful_bool.eq_of_emit ⟨_, rfl⟩ ⟨_, rfl⟩ hv hw
    | accountAddress =>
      have hexact : ∀ {u : Value}, accepts .accountAddress u = .ok () →
          Codec.accountAddress.Exact u := by
        intro u hu
        cases u <;> first | exact ⟨_, rfl⟩ | cases hu
      exact faithful_accountAddress.eq_of_emit (hexact haccepts) (hexact haccepts') hv hw
    | bytes width order =>
      cases v <;> cases haccepts
      cases w <;> cases haccepts'
      exact (faithful_bytes width order).eq_of_emit ⟨_, rfl⟩ ⟨_, rfl⟩ hv hw
    | text width order =>
      cases v <;> cases haccepts
      cases w <;> cases haccepts'
      exact (faithful_text width order).eq_of_emit ⟨_, rfl⟩ ⟨_, rfl⟩ hv hw
    | unit _ _ => trivial
    | sequence _ _ _ _ => exact alike_sequence hps hqs hparts
    | varTuple _ => exact alike_varTuple hps hqs hparts
    | set _ _ _ _ => exact alike_set hps hqs hparts
    | map _ _ _ _ => exact alike_map hps hqs hparts
    | optional _ => exact alike_optional hps hqs hparts
    | tuple _ => exact alike_tuple hps hqs hparts
    | struct _ _ _ => exact alike_fields hps hqs hparts
    | variants _ _ _ _ => exact alike_variants hfront hfront' hps hqs hparts
    | members _ _ _ _ _ => exact alike_members hfront hfront' haccepts haccepts'

/-! ## Plain values that are alike are equal -/

theorem forall₂_of_mem {α β : Type} {R S : α → β → Prop} {as : List α} {bs : List β}
    (h : List.Forall₂ R as bs) (himp : ∀ a ∈ as, ∀ b ∈ bs, R a b → S a b) : List.Forall₂ S as bs := by
  induction h with
  | nil => exact .nil
  | cons hab _ ih =>
    exact .cons (himp _ List.mem_cons_self _ List.mem_cons_self hab) (ih fun a ha b hb =>
      himp a (List.mem_cons_of_mem _ ha) b (List.mem_cons_of_mem _ hb))

/-- Plain values of a codec that are alike are equal. -/
def EqualIfAlike (c : Codec) : Prop :=
  ∀ ⦃v w : Value⦄, c.Alike v w → c.Passes v → c.Passes w → v.beq w = true

theorem beqAll_of_alikeEach {cs : List Codec} {vs ws : List Value} (hcs : ∀ c ∈ cs, c.EqualIfAlike)
    (h : AlikeEach cs vs ws) (hvs : List.Forall₂ Passes cs vs) (hws : List.Forall₂ Passes cs ws) :
    Value.beqAll vs ws = true := by
  induction hvs generalizing ws with
  | nil =>
    cases hws
    rw [Value.beqAll]
  | cons hv _ ih =>
    cases hws with
    | cons hw hws =>
      obtain ⟨hvw, h⟩ := h
      rw [Value.beqAll, hcs _ List.mem_cons_self hvw hv hw,
        ih (fun d hd => hcs d (List.mem_cons_of_mem _ hd)) h hws]
      rfl

section Containers

variable {tuples frozen : Bool} {item member key value : Codec} {items : List Codec}
  {width : PrefixWidth} {order : OrderPolicy}

/-- Items that are alike one by one are equal one by one. -/
theorem EqualIfAlike.each {vs ws : List Value} (hitem : item.EqualIfAlike)
    (h : List.Forall₂ item.Alike vs ws) (hvs : ∀ x ∈ vs, item.Passes x)
    (hws : ∀ y ∈ ws, item.Passes y) : List.Forall₂ (fun x y => x.beq y = true) vs ws :=
  forall₂_of_mem h fun x hx y hy hxy => hitem hxy (hvs x hx) (hws y hy)

theorem equalIfAlike_contractAddress : Codec.contractAddress.EqualIfAlike := by
  intro v w h hv hw
  obtain ⟨i, j, hparts, hparts'⟩ := h
  obtain ⟨cls, x, y, -, -, rfl, hpos, -⟩ := hv.address
  obtain ⟨cls', x', y', -, -, rfl, hpos', -⟩ := hw.address
  simp only [addressParts?, Option.some.injEq, Prod.mk.injEq] at hparts hparts'
  have hpart : ∀ {a b : Value} {n : Int}, a.integer? = some n → b.integer? = some n →
      a.beq b = true := fun ha hb =>
    (Value.beq_of_number? (number?_of_integer? ha) (number?_of_integer? hb)).mpr rfl
  rw [(Value.compare_of_tupleItems? (Value.tupleItems?_record.mpr ⟨hpos, rfl⟩)
    (Value.tupleItems?_record.mpr ⟨hpos', rfl⟩)).1]
  exact Value.beqAll_of_forall₂
    (.cons (hpart hparts.1 hparts'.1) (.cons (hpart hparts.2 hparts'.2) .nil))

theorem equalIfAlike_sequence (hitem : item.EqualIfAlike) :
    (Codec.sequence tuples item width order).EqualIfAlike := by
  intro v w h hv hw
  obtain ⟨vs, ws, hvs, hws, h⟩ := h
  have hbeq := Value.beqAll_of_forall₂ (hitem.each h
    (hv.items (holdings_sequence_eq_some.mpr ⟨vs, hvs, rfl⟩))
    (hw.items (holdings_sequence_eq_some.mpr ⟨ws, hws, rfl⟩)))
  cases tuples with
  | true => rw [(Value.compare_of_tupleItems? hvs hws).1, hbeq]
  | false =>
    cases v <;> cases hvs
    cases w <;> cases hws
    rw [Value.beq, hbeq]

theorem equalIfAlike_varTuple (hitem : item.EqualIfAlike) :
    (Codec.varTuple item).EqualIfAlike := by
  intro v w h hv hw
  obtain ⟨vs, ws, hvs, hws, h⟩ := h
  rw [(Value.compare_of_tupleItems? hvs hws).1]
  exact Value.beqAll_of_forall₂ (hitem.each h
    (hv.items (holdings_varTuple_eq_some.mpr ⟨vs, hvs, rfl⟩))
    (hw.items (holdings_varTuple_eq_some.mpr ⟨ws, hws, rfl⟩)))

theorem equalIfAlike_set (hmember : member.EqualIfAlike) :
    (Codec.set frozen member width order).EqualIfAlike := by
  intro v w h hv hw
  obtain ⟨vs, ws, us, hvs, hws, h, hperm⟩ := h
  have hpass := hv.items (holdings_set_eq_some.mpr ⟨vs, vs, hvs, rfl, rfl⟩)
  have hpass' := hw.items (holdings_set_eq_some.mpr ⟨ws, ws, hws, rfl, rfl⟩)
  exact Value.beq_of_forall₂ hvs hws
    (hmember.each h hpass fun y hy => hpass' y (hperm.mem_iff.mp hy)) hperm

theorem equalIfAlike_map (hkey : key.EqualIfAlike) (hvalue : value.EqualIfAlike) :
    (Codec.map key value width order).EqualIfAlike := by
  intro v w h hv hw
  obtain ⟨es, fs, us, rfl, rfl, h, hperm⟩ := h
  rw [Value.beq, Bool.and_eq_true, beq_iff_eq, Value.entriesAmong_iff]
  refine ⟨h.length_eq.trans hperm.length_eq, fun e he => ?_⟩
  obtain ⟨f, hf, hkeys, hvalues⟩ := Value.exists_of_forall₂_perm h hperm he
  obtain ⟨hke, hve⟩ := hv.entries e he
  obtain ⟨hkf, hvf⟩ := hw.entries f hf
  exact ⟨f, hf, hkey hkeys hke hkf, hvalue hvalues hve hvf⟩

theorem equalIfAlike_optional (hitem : item.EqualIfAlike) :
    (Codec.optional item).EqualIfAlike := by
  intro v w h hv hw
  have hpresent : ∀ {u : Value}, u ≠ .none → (Codec.optional item).Passes u → item.Passes u := by
    intro u hu hpass
    obtain ⟨ps, hps, hall⟩ := hpass.exists_held
    rw [held?, holdings_optional hu] at hps
    cases hps
    exact hall (item, u) List.mem_cons_self
  rcases h with ⟨rfl, rfl⟩ | ⟨hne, hne', h⟩
  · rw [Value.beq]
  · exact hitem h (hpresent hne hv) (hpresent hne' hw)

theorem equalIfAlike_tuple (hitems : ∀ d ∈ items, d.EqualIfAlike) :
    (Codec.tuple items).EqualIfAlike := by
  intro v w h hv hw
  obtain ⟨vs, ws, hvs, hws, h⟩ := h
  obtain ⟨vs', hvs', hpass⟩ := hv.tuple
  obtain ⟨ws', hws', hpass'⟩ := hw.tuple
  obtain rfl := Option.some.inj (hvs.symm.trans hvs')
  obtain rfl := Option.some.inj (hws.symm.trans hws')
  rw [(Value.compare_of_tupleItems? hvs hws).1]
  exact beqAll_of_alikeEach hitems h hpass hpass'

theorem equalIfAlike_struct {target : Target} {directions : Directions}
    (hitems : ∀ d ∈ items, d.EqualIfAlike) : (Codec.struct target directions items).EqualIfAlike := by
  intro v w h hv hw
  obtain ⟨vs, ws, hvs, hws, h⟩ := h
  obtain ⟨vs', hvs', hpass, hshape⟩ := hv.struct
  obtain ⟨ws', hws', hpass', hshape'⟩ := hw.struct
  obtain rfl := Except.ok.inj (hvs.symm.trans hvs')
  obtain rfl := Except.ok.inj (hws.symm.trans hws')
  have hbeq := beqAll_of_alikeEach hitems h hpass hpass'
  split at hshape
  · rename_i hpos
    rw [if_pos hpos] at hshape'
    rw [(Value.compare_of_tupleItems? hshape hshape').1, hbeq]
  · rename_i hpos
    rw [if_neg hpos] at hshape'
    rw [hshape, hshape', Value.beq_record, hbeq]

section Sums

variable {enum : ClassRef} {directions : Directions} {tag : TagWidth}

theorem equalIfAlike_variants {cases : List (Target × List Codec)}
    (hnode : (Codec.variants enum directions tag cases).SoundNode)
    (hfields : ∀ case ∈ cases, ∀ d ∈ case.2, d.EqualIfAlike) :
    (Codec.variants enum directions tag cases).EqualIfAlike := by
  intro v w h hv hw
  obtain ⟨i, hi, hi', h⟩ := h
  obtain ⟨j, case, vs, hj, hcase, hv', hvs, hpass⟩ := hv.variants hnode
  obtain ⟨j', case', ws, hj', hcase', hw', hws, hpass'⟩ := hw.variants hnode
  obtain rfl := Option.some.inj (hi.symm.trans hj)
  obtain rfl := Option.some.inj (hi'.symm.trans hj')
  obtain rfl := Option.some.inj (hcase.symm.trans hcase')
  obtain ⟨vs', ws', hvs', hws', h⟩ := (alikeCase_iff hcase).mp h
  obtain rfl := Except.ok.inj (hvs.symm.trans hvs')
  obtain rfl := Except.ok.inj (hws.symm.trans hws')
  rw [hv', hw', Value.beq_record]
  exact beqAll_of_alikeEach (hfields case (List.mem_of_getElem? hcase)) h hpass hpass'

theorem equalIfAlike_members {hashable : Bool} {cases : List Member} :
    (Codec.members enum hashable directions tag cases).EqualIfAlike := by
  intro v w h _ _
  obtain ⟨i, hi, hi'⟩ := h
  obtain ⟨m, hm, hbeq⟩ := memberOf?_spec hi
  obtain ⟨m', hm', hbeq'⟩ := memberOf?_spec hi'
  obtain rfl := Option.some.inj (hm.symm.trans hm')
  exact Value.beq_of_member hbeq hbeq'

end Sums

end Containers

/-- **Plain values that are alike are equal.** Being alike says the same of what is written only; plain
values have nothing besides by which they could differ. -/
theorem beq_of_alike (hsound : c.Sound) :
    ∀ {v w : Value}, c.Alike v w → c.Passes v → c.Passes w → v.beq w = true := by
  induction c using induct with
  | h c ih =>
    have ih' : ∀ d ∈ c.children, d.EqualIfAlike := fun d hd x y => ih d hd (hsound.child hd)
    intro v w h hv hw
    -- plainness is used at addresses and instances; containers hand it down to what they hold
    cases c with
    | int _ =>
      obtain ⟨n, hn, hn'⟩ := h
      exact (Value.beq_of_number? (number?_of_integer? hn) (number?_of_integer? hn')).mpr rfl
    | bool | bytes _ _ | text _ _ =>
      obtain rfl := h
      have haccepts := hv.accepts
      cases v <;> cases haccepts
      simp [Value.beq, Value.number?]
    | accountAddress =>
      obtain rfl := h
      have haccepts := hv.accepts
      cases v with
      | bytes data => simp [Value.beq]
      | _ => cases haccepts
    | contractAddress => exact equalIfAlike_contractAddress h hv hw
    | sequence tuples item width order =>
      exact equalIfAlike_sequence (ih' item (by simp [children])) h hv hw
    | varTuple item => exact equalIfAlike_varTuple (ih' item (by simp [children])) h hv hw
    | set frozen member width order =>
      exact equalIfAlike_set (ih' member (by simp [children])) h hv hw
    | map key value width order =>
      exact equalIfAlike_map (ih' key (by simp [children])) (ih' value (by simp [children])) h hv hw
    | optional item => exact equalIfAlike_optional (ih' item (by simp [children])) h hv hw
    | tuple items => exact equalIfAlike_tuple ih' h hv hw
    | struct target directions fields => exact equalIfAlike_struct ih' h hv hw
    | unit target directions =>
      rw [hv.plain.node, hw.plain.node, Value.beq_record, Value.beqAll]
    | variants enum directions tag cases =>
      exact equalIfAlike_variants hsound.node
        (fun _ hcase d hd => ih' d (mem_children_of_case hcase hd)) h hv hw
    | members enum hashable directions tag cases => exact equalIfAlike_members h hv hw

end

end Codec

end ContractKit
