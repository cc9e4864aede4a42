import ContractKit.Proofs.Codec.Held
import ContractKit.Proofs.Wire.Ending

/-!
# `Proofs/Codec/Ends.lean`: reading ends where writing did

A codec that reads what it has written need not succeed: the class may derive writing alone, its
constructor may refuse the fields, or the keys of a set may have no order. But it never reads on behind
the last byte that was written, whatever stands there (`ends_of_emit`). The head of a value is taken
whole, and then the values that it holds are read one after the other, each inside of its own piece.
-/

set_option autoImplicit false

namespace ContractKit.Codec

open Bytes (Pieces)

/-! ## Heads -/

theorem ends_accountAddress {v : Value} {data : Bytes}
    (haccepts : accepts .accountAddress v = .ok ())
    (hhead : (Codec.accountAddress.head v).toBytes = .ok data) :
    Codec.accountAddress.read.Ends data := by
  cases v with
  | bytes x =>
    have hlen : x.length = 32 := by
      by_contra h
      rw [accepts, if_neg h] at haccepts
      cases haccepts
    rw [head, Emit.toBytes_chunk] at hhead
    cases hhead
    exact .map (.takes (Read.takes_getBytes.mpr ⟨rfl, hlen⟩))
  | _ => cases haccepts

theorem ends_readAddressPart {items : List Value} {i : Nat} {data : Bytes}
    (h : (emitAddressPart items i).toBytes = .ok data) : readAddressPart.Ends data := by
  unfold emitAddressPart at h
  cases hi : items[i]? with
  | none =>
    rw [hi] at h
    exact absurd h Emit.toBytes_fail_ne
  | some v =>
    rw [hi] at h
    exact .takes (Read.takes_int.mpr h)

theorem ends_contractAddress {v : Value} {data : Bytes}
    (haccepts : accepts .contractAddress v = .ok ())
    (hhead : (Codec.contractAddress.head v).toBytes = .ok data) :
    Codec.contractAddress.read.Ends data := by
  cases v with
  | record cls items =>
    obtain ⟨front, rest, rfl, hfront, hrest⟩ := Emit.toBytes_append_eq_ok.mp hhead
    exact (ends_readAddressPart hfront).bind fun _ _ => .map (ends_readAddressPart hrest)
  | _ => cases haccepts

/-- Reading where only writing is derived ends at once. -/
theorem ends_ensureReads {α : Type} {ref : ClassRef} {directions : Directions} {k : Unit → Read α}
    {data : Bytes} (h : (k ()).Ends data) : ((ensureReads ref directions).bind k).Ends data := by
  unfold ensureReads
  split
  · exact h
  · exact .fail _ data

/-! ## What a value holds -/

/-- The fields that are written are read one after the other. -/
theorem ends_readEach : ∀ {cs : List Codec} {vs : List Value} {ps : List (Codec × Value)}
    {data : Bytes}, paired? cs vs = some ps → Pieces (fun p d => p.1.read.Ends d) ps data →
      (readEach cs).Ends data
  | [], _, _, _, hps, hpieces => by
    cases hps
    obtain rfl : _ = [] := hpieces
    exact .done []
  | c :: cs, v :: vs, _, _, hps, hpieces => by
    obtain ⟨qs, hqs, rfl⟩ := Option.map_eq_some_iff.mp hps
    obtain ⟨front, rest, rfl, hc, hpieces⟩ := hpieces
    exact .bind hc fun _ _ => .map (ends_readEach hqs hpieces)

theorem ends_readFields {target : Target} {fields : List Codec} {v : Value}
    {ps : List (Codec × Value)} {data : Bytes} (hps : shownFields? target fields v = some ps)
    (hpieces : Pieces (fun p d => p.1.read.Ends d) ps data) :
    ((readEach fields).bind fun vs => Read.ofExcept (target.build vs)).Ends data := by
  obtain ⟨vs, -, hps⟩ := shownFields_eq_some.mp hps
  rw [← List.append_nil data]
  exact (ends_readEach hps hpieces).bind fun _ _ => .ofExcept _

/-- The keys and values of entries, taken two by two. -/
theorem pieces_entries {key value : Codec} : ∀ {es : List (Value × Value)} {data : Bytes},
    Pieces (fun p d => p.1.read.Ends d) (es.flatMap (entryParts key value)) data →
      Pieces (fun _ d => (Read.entry key.read value.read).Ends d) es data
  | [], _, h => h
  | _ :: _, _, ⟨_, _, hdata, hkey, _, _, hrest, hvalue, hpieces⟩ =>
    ⟨_, _, by rw [hdata, hrest, List.append_assoc], hkey.entry hvalue, pieces_entries hpieces⟩

/-! ## One node -/

/-- A value whose head was written, and whose parts are each read inside of their own piece, is read
inside of what was written. This is what a kind of codec has to have for itself, whatever the codecs of
the parts are. -/
def EndsBehindHead (c : Codec) : Prop :=
  ∀ ⦃v : Value⦄ ⦃ps : List (Codec × Value)⦄ ⦃front rest : Bytes⦄, accepts c v = .ok () →
    written? c v = some ps → (c.head v).toBytes = .ok front →
      Pieces (fun p d => p.1.read.Ends d) ps rest → c.read.Ends (front ++ rest)

/-- A codec whose values hold no others has nothing behind the head. -/
theorem endsBehindHead_leaf {c : Codec} (hbare : ∀ v, written? c v = some [])
    (hread : ∀ {v : Value} {front : Bytes}, accepts c v = .ok () → (c.head v).toBytes = .ok front →
      c.read.Ends front) : c.EndsBehindHead := by
  intro v ps front rest haccepts hps hhead hpieces
  obtain rfl : [] = ps := Option.some.inj ((hbare v).symm.trans hps)
  obtain rfl : rest = [] := hpieces
  rw [List.append_nil]
  exact hread haccepts hhead

section Leaves

variable {v : Value} {front : Bytes} {width : PrefixWidth} {order : OrderPolicy}

theorem ends_bytes (haccepts : accepts (.bytes width order) v = .ok ())
    (hhead : ((Codec.bytes width order).head v).toBytes = .ok front) :
    (Codec.bytes width order).read.Ends front := by
  cases v with
  | bytes x => exact .map (.takes (Read.takes_prefixedBytes.mpr hhead))
  | _ => cases haccepts

theorem ends_text (haccepts : accepts (.text width order) v = .ok ())
    (hhead : ((Codec.text width order).head v).toBytes = .ok front) :
    (Codec.text width order).read.Ends front := by
  cases v with
  | text s => exact .map (.takes (Read.takes_prefixedText.mpr hhead))
  | _ => cases haccepts

theorem ends_members {enum : ClassRef} {hashable : Bool} {directions : Directions} {tag : TagWidth}
    {cases : List Member} (haccepts : accepts (.members enum hashable directions tag cases) v = .ok ())
    (hhead : ((Codec.members enum hashable directions tag cases).head v).toBytes = .ok front) :
    (Codec.members enum hashable directions tag cases).read.Ends front := by
  obtain ⟨-, i, hi⟩ := accepts_members.mp haccepts
  obtain ⟨m, hm, -⟩ := memberOf?_spec hi
  rw [← List.append_nil front]
  rw [head, hi] at hhead
  refine ends_ensureReads (.bind_takes (takes_readTag.mpr hhead) ?_)
  rw [hm]
  exact .done _

end Leaves

section Containers

variable {item key value : Codec} {fields : List Codec} {width : PrefixWidth} {order : OrderPolicy}
  {tuples frozen : Bool} {target : Target} {directions : Directions} {enum : ClassRef}
  {tag : TagWidth} {cases : List (Target × List Codec)}

theorem endsBehindHead_sequence : (Codec.sequence tuples item width order).EndsBehindHead := by
  intro v ps front rest _ hps hhead hpieces
  obtain ⟨vs, hvs, rfl⟩ := holdings_sequence_eq_some.mp hps
  rw [head_sequence hvs] at hhead
  exact .map (.prefixedItems (Pieces.map.mp hpieces) hhead)

theorem endsBehindHead_varTuple : (Codec.varTuple item).EndsBehindHead := by
  intro v ps front rest _ hps hhead hpieces
  obtain ⟨vs, hvs, rfl⟩ := holdings_varTuple_eq_some.mp hps
  rw [head_varTuple hvs] at hhead
  exact .map (.prefixedItems (Pieces.map.mp hpieces) hhead)

theorem endsBehindHead_set : (Codec.set frozen item width order).EndsBehindHead := by
  intro v ps front rest _ hps hhead hpieces
  obtain ⟨vs, ws, hvs, hws, rfl⟩ := holdings_set_eq_some.mp hps
  rw [head_set hvs, ← (Value.perm_of_sortedBy? hws).length_eq] at hhead
  exact .map (.keyed (Pieces.map.mp hpieces) hhead _ _)

theorem endsBehindHead_map : (Codec.map key value width order).EndsBehindHead := by
  intro v ps front rest _ hps hhead hpieces
  obtain ⟨es, fs, rfl, hfs, rfl⟩ := holdings_map_eq_some.mp hps
  rw [head, ← (Value.perm_of_sortedBy? hfs).length_eq] at hhead
  exact .map (.keyed (pieces_entries hpieces) hhead _ _)

theorem endsBehindHead_optional : (Codec.optional item).EndsBehindHead := by
  intro v ps front rest _ hps hhead hpieces
  rcases holdings_optional_eq_some.mp hps with ⟨rfl, rfl⟩ | ⟨hnone, rfl⟩
  · obtain rfl : rest = [] := hpieces
    rw [List.append_nil, Emit.toBytes_byte.mp hhead]
    exact .byte (.done _)
  · obtain ⟨d, tail, rfl, hitem, rfl⟩ := hpieces
    rw [head_optional hnone] at hhead
    rw [Emit.toBytes_byte.mp hhead, List.append_nil]
    exact .byte hitem

theorem endsBehindHead_tuple : (Codec.tuple fields).EndsBehindHead := by
  intro v ps front rest _ hps hhead hpieces
  obtain ⟨vs, hvs, hps⟩ := holdings_tuple_eq_some.mp hps
  cases hhead
  exact .map (ends_readEach hps hpieces)

theorem endsBehindHead_struct : (Codec.struct target directions fields).EndsBehindHead := by
  intro v ps front rest _ hps hhead hpieces
  cases hhead
  exact ends_ensureReads (ends_readFields hps hpieces)

theorem endsBehindHead_variants : (Codec.variants enum directions tag cases).EndsBehindHead := by
  intro v ps front rest _ hps hhead hpieces
  obtain ⟨i, case, hi, hcase, hps⟩ := holdings_variants_eq_some.mp hps
  rw [head, hi] at hhead
  refine ends_ensureReads (.bind_takes (takes_readTag.mpr hhead) ?_)
  rw [readCase_eq, hcase]
  exact ends_readFields hps hpieces

end Containers

/-! ## Values -/

/-- **Whatever its parts are, a codec that reads each of them inside of its own piece reads inside of what
was written.** -/
theorem endsBehindHead (c : Codec) : c.EndsBehindHead := by
  cases c with
  | int _ => exact endsBehindHead_leaf (fun _ => rfl) fun _ h => .map (.takes (Read.takes_int.mpr h))
  | bool => exact endsBehindHead_leaf (fun _ => rfl) fun _ h => .map (.takes (Read.takes_bool.mpr h))
  | accountAddress => exact endsBehindHead_leaf (fun _ => rfl) ends_accountAddress
  | contractAddress => exact endsBehindHead_leaf (fun _ => rfl) ends_contractAddress
  | bytes _ _ => exact endsBehindHead_leaf (fun _ => rfl) ends_bytes
  | text _ _ => exact endsBehindHead_leaf (fun _ => rfl) ends_text
  | members _ _ _ _ _ => exact endsBehindHead_leaf (fun _ => rfl) ends_members
  | unit _ _ =>
    refine endsBehindHead_leaf (fun _ => rfl) fun _ hhead => ?_
    cases hhead
    exact ends_ensureReads (.ofExcept _)
  | sequence _ _ _ _ => exact endsBehindHead_sequence
  | varTuple _ => exact endsBehindHead_varTuple
  | set _ _ _ _ => exact endsBehindHead_set
  | map _ _ _ _ => exact endsBehindHead_map
  | optional _ => exact endsBehindHead_optional
  | tuple _ => exact endsBehindHead_tuple
  | struct _ _ _ => exact endsBehindHead_struct
  | variants _ _ _ _ => exact endsBehindHead_variants

/-- **Reading ends where writing did**, for every codec and every value that it writes. The value that
is read need not be the one that was written, and the keys need not be accepted: it is about the bytes
that are taken until then. -/
theorem ends_of_emit {c : Codec} :
    ∀ {v : Value} {data : Bytes}, (c.emit v).toBytes = .ok data → c.read.Ends data := by
  induction c using induct with
  | h c ih =>
    intro v data h
    obtain ⟨haccepts, -, ps, front, rest, hps, rfl, hhead, hpieces⟩ := toBytes_emit_eq_ok.mp h
    refine endsBehindHead c haccepts hps hhead (hpieces.mono fun p hp d hd => ?_)
    exact ih p.1 (mem_children_of_holdings hps p hp) hd

end ContractKit.Codec
