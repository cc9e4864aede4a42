import ContractKit.Proofs.Codec.Layout
import ContractKit.Proofs.Schema.Walk
import ContractKit.Proofs.Value.Sorted

/-!
# `Proofs/Codec/Walk.lean`: where a value ends

The layout of a codec's values without the values: `walk` skips what the codec writes and what it
reads. Both are shown here, for whatever value the codec takes, exact or not (`takes_walk_of_emit`,
`takes_walk_of_read`); that a schema walks the same way is a matter of how codec and schema were
derived, and of nothing in this file. Either way there is a lemma for each kind of codec
(`SkipsRead`, `SkipsWritten`), given the same of the codecs that it delegates to.
-/

set_option autoImplicit false

namespace ContractKit.Codec

open LittleEndian Read
open Bytes (Pieces)

mutual

/-- Skip a value of a codec. -/
def walk : Codec → Read Unit
  | .int format => skip format.width
  | .bool => skip 1
  | .accountAddress => skip 32
  | .contractAddress => skip 16
  | .bytes width _ | .text width _ => skipCounted width (skip 1)
  | .sequence _ item width _ => skipCounted width (walk item)
  | .set _ member width _ => skipCounted width (walk member)
  | .map key value width _ => skipCounted width (inOrder [walk key, walk value])
  | .optional item => skipOptional (walk item)
  | .tuple items => inOrder (walkAll items)
  | .varTuple item => skipCounted .standard (walk item)
  | .struct _ _ fields => inOrder (walkAll fields)
  | .unit .. => inOrder []
  | .variants _ _ _ cases => skipTagged (walkCases cases)
  | .members _ _ _ _ cases => skipTagged (cases.map fun _ => inOrder [])

/-- What skips each of the values of some codecs. -/
def walkAll : List Codec → List (Read Unit)
  | [] => []
  | c :: cs => walk c :: walkAll cs

/-- What skips the fields of each of the variants. -/
def walkCases : List (Target × List Codec) → List (Read Unit)
  | [] => []
  | (_, fields) :: rest => inOrder (walkAll fields) :: walkCases rest

end

theorem walkAll_eq : ∀ cs : List Codec, walkAll cs = cs.map walk
  | [] => rfl
  | c :: cs => by rw [walkAll, walkAll_eq cs, List.map_cons]

theorem walkCases_eq : ∀ cases : List (Target × List Codec),
    walkCases cases = cases.map fun case => inOrder (walkAll case.2)
  | [] => rfl
  | (_, fields) :: rest => by rw [walkCases, walkCases_eq rest, List.map_cons]

/-! ## Pieces -/

/-- A tag and what it selects are skipped, where the tag is as wide as the cases ask for. -/
theorem takes_skipTagged_of_tag {tag : TagWidth} {walks : List (Read Unit)} {p : Read Unit} {i : Nat}
    {front rest : Bytes} (hwidth : TagWidth.forCount walks.length = .ok tag)
    (htag : (emitTag tag i).toBytes = .ok front) (hi : walks[i]? = some p) (hp : p.Takes rest ()) :
    (skipTagged walks).Takes (front ++ rest) () := by
  obtain ⟨hlen, hvalue⟩ := toBytes_emitTag.mp htag
  exact takes_skipTagged (hlen.trans (TagWidth.bytes_of_forCount hwidth)) hvalue hi hp

theorem length_of_toBytes_int {format : Format} {n : Int} {data : Bytes}
    (h : (Emit.int format n).toBytes = .ok data) : data.length = format.width :=
  (Format.encode?_eq_some_iff.mp (Emit.toBytes_int.mp h)).1

/-! ## What is read -/

/-- The walk of a codec skips whatever the codec reads. -/
def SkipsRead (c : Codec) : Prop :=
  ∀ ⦃data : Bytes⦄ ⦃v : Value⦄, c.read.Takes data v → c.walk.Takes data ()

section Reads

variable {item key value : Codec} {width : PrefixWidth} {order : OrderPolicy}

/-- Items of one codec behind a count. -/
theorem SkipsRead.counted (hitem : item.SkipsRead) {data : Bytes} {vs : List Value}
    (h : (prefixedItems width item.read).Takes data vs) :
    (skipCounted width item.walk).Takes data () := by
  obtain ⟨front, rest, rfl, hcount, hpieces⟩ := takes_prefixedItems.mp h
  exact takes_skipCounted hcount (hpieces.mono fun _ _ _ hd => hitem hd)

theorem takes_walkAll_of_read : ∀ {cs : List Codec}, (∀ c ∈ cs, c.SkipsRead) →
    ∀ {data : Bytes} {vs : List Value}, (readEach cs).Takes data vs →
      (inOrder (walkAll cs)).Takes data ()
  | [], _, _, _, h => ⟨h.1, rfl⟩
  | c :: cs, hcs, data, vs, h => by
    obtain ⟨x, xs, front, rest, rfl, rfl, hx, hxs⟩ := takes_readEach_cons.mp h
    refine takes_inOrder_cons.mpr ⟨front, rest, rfl, hcs c (by simp) hx, ?_⟩
    exact takes_walkAll_of_read (fun d hd => hcs d (by simp [hd])) hxs

theorem skipsRead_contractAddress : Codec.contractAddress.SkipsRead := by
  intro data v h
  rw [read, readAddressPart, Read.takes_bind] at h
  obtain ⟨i, front, rest, rfl, hi, h⟩ := h
  obtain ⟨j, hj, -⟩ := Read.takes_map.mp h
  refine takes_skip.mpr ?_
  rw [List.length_append, length_of_toBytes_int (takes_int.mp hi),
    length_of_toBytes_int (takes_int.mp hj)]
  rfl

theorem skipsRead_map (hkey : key.SkipsRead) (hvalue : value.SkipsRead) :
    (Codec.map key value width order).SkipsRead := by
  intro data v h
  obtain ⟨es, hes, -, -⟩ := takes_map.mp h
  obtain ⟨front, rest, rfl, hcount, hpieces⟩ := takes_prefixedItems.mp hes
  refine takes_skipCounted hcount (hpieces.mono fun e _ d hd => ?_)
  obtain ⟨x, y, rfl, hx, hy⟩ := takes_entry.mp hd
  exact takes_inOrder_pair (hkey hx) (hvalue hy)

theorem skipsRead_optional (hitem : item.SkipsRead) : (Codec.optional item).SkipsRead := by
  intro data v h
  rcases takes_optional.mp h with ⟨rfl, -⟩ | ⟨rest, rfl, hrest⟩
  · exact takes_skipOptional_none
  · exact takes_skipOptional_some (hitem hrest)

section Sums

variable {enum : ClassRef} {directions : Directions} {tag : TagWidth} {hashable : Bool}

theorem skipsRead_variants {cases : List (Target × List Codec)}
    (hwidth : TagWidth.forCount cases.length = .ok tag)
    (hfields : ∀ case ∈ cases, ∀ d ∈ case.2, d.SkipsRead) :
    (Codec.variants enum directions tag cases).SkipsRead := by
  intro data v h
  obtain ⟨-, i, case, vs, front, rest, rfl, htag, hi, hvs, -⟩ := takes_variants.mp h
  refine takes_skipTagged_of_tag (p := inOrder (walkAll case.2)) ?_ htag ?_ ?_
  · rw [walkCases_eq, List.length_map]
    exact hwidth
  · rw [walkCases_eq, List.getElem?_map, hi]
    rfl
  · exact takes_walkAll_of_read (hfields case (List.mem_of_getElem? hi)) hvs

theorem skipsRead_members {cases : List Member} (hwidth : TagWidth.forCount cases.length = .ok tag) :
    (Codec.members enum hashable directions tag cases).SkipsRead := by
  intro data v h
  rw [read, takes_ensureReads, Read.takes_bind] at h
  obtain ⟨-, i, front, rest, rfl, htag, h⟩ := h
  cases hi : cases[i]? with
  | none =>
    rw [hi] at h
    exact h.elim
  | some m =>
    rw [hi] at h
    refine takes_skipTagged_of_tag (p := inOrder []) ?_ (takes_readTag.mp htag) ?_ ⟨h.1, rfl⟩
    · rw [List.length_map]
      exact hwidth
    · rw [List.getElem?_map, hi]
      rfl

end Sums

end Reads

/-- **Whatever is read is skipped.** By induction over the codec: skipping makes the steps of reading
and leaves out what reading checks. -/
theorem takes_walk_of_read {c : Codec} (hsound : c.Sound) :
    ∀ ⦃data : Bytes⦄ ⦃v : Value⦄, c.read.Takes data v → c.walk.Takes data () := by
  induction c using induct with
  | h c ih =>
    have ih' : ∀ d ∈ c.children, d.SkipsRead := fun d hd => ih d hd (hsound.child hd)
    intro data v h
    -- the conditions that reading made are dropped, and the bytes that it took are what is skipped
    cases c with
    | int format =>
      rw [read, Read.takes_map] at h
      obtain ⟨n, hn, -⟩ := h
      exact takes_skip.mpr (length_of_toBytes_int (takes_int.mp hn))
    | bool =>
      rw [read, Read.takes_map] at h
      obtain ⟨b, hb, -⟩ := h
      rw [takes_bool, Emit.bool, Emit.toBytes_byte] at hb
      exact takes_skip.mpr (by rw [hb]; rfl)
    | accountAddress =>
      rw [read, Read.takes_map] at h
      obtain ⟨x, hx, -⟩ := h
      exact takes_skip.mpr (takes_getBytes.mp hx).2
    | contractAddress => exact skipsRead_contractAddress h
    | bytes width order =>
      rw [read, Read.takes_map] at h
      obtain ⟨x, hx, -⟩ := h
      exact takes_skipCounted_bytes (takes_prefixedBytes.mp hx)
    | text width order =>
      rw [read, Read.takes_map] at h
      obtain ⟨s, hs, -⟩ := h
      exact takes_skipCounted_bytes (takes_prefixedText.mp hs)
    | sequence tuples item width order =>
      obtain ⟨vs, hvs, -⟩ := takes_sequence.mp h
      exact (ih' item (by simp [children])).counted hvs
    | varTuple item =>
      obtain ⟨vs, hvs, -⟩ := takes_varTuple.mp h
      exact (ih' item (by simp [children])).counted hvs
    | set frozen member width order =>
      obtain ⟨vs, hvs, -, -⟩ := takes_set.mp h
      exact (ih' member (by simp [children])).counted hvs
    | map key value width order =>
      exact skipsRead_map (ih' key (by simp [children])) (ih' value (by simp [children])) h
    | optional item => exact skipsRead_optional (ih' item (by simp [children])) h
    | tuple items =>
      obtain ⟨vs, hvs, -⟩ := takes_tuple.mp h
      exact takes_walkAll_of_read ih' hvs
    | struct target directions fields =>
      obtain ⟨-, vs, hvs, -⟩ := takes_struct.mp h
      exact takes_walkAll_of_read ih' hvs
    | unit target directions =>
      rw [read, takes_ensureReads, takes_ofExcept] at h
      exact ⟨h.2.1, rfl⟩
    | variants enum directions tag cases =>
      exact skipsRead_variants hsound.node.1
        (fun _ hcase d hd => ih' d (mem_children_of_case hcase hd)) h
    | members enum hashable directions tag cases => exact skipsRead_members hsound.node.1 h

/-! ## What is written -/

/-- The walk of a codec skips whatever the codec writes. -/
def SkipsWritten (c : Codec) : Prop :=
  ∀ ⦃v : Value⦄ ⦃data : Bytes⦄, (c.emit v).toBytes = .ok data → c.walk.Takes data ()

/-- The items written behind a count are skipped, whatever order they were put in. -/
theorem takes_walk_of_counted {α : Type} {width : PrefixWidth} {write : α → Emit} {p : Read Unit}
    {as : List α} {n : Nat} {data : Bytes} (hlen : as.length = n)
    (hitem : ∀ a ∈ as, ∀ d, (write a).toBytes = .ok d → p.Takes d ())
    (h : (Emit.count width n ++ Emit.each write as).toBytes = .ok data) :
    (skipCounted width p).Takes data () := by
  obtain ⟨front, rest, rfl, hcount, hrest⟩ := Emit.toBytes_append_eq_ok.mp h
  rw [Emit.toBytes_each] at hrest
  exact takes_skipCounted (hlen ▸ hcount) (hrest.mono hitem)

/-- The fields are written up to the last; an instance that lacks one is not written. -/
theorem takes_walkAll_of_emit : ∀ {cs : List Codec}, (∀ c ∈ cs, c.SkipsWritten) →
    ∀ {vs : List Value} {data : Bytes}, (emitEach cs vs).toBytes = .ok data →
      (inOrder (walkAll cs)).Takes data ()
  | [], _, vs, data, h => by
    rw [emitEach, Emit.toBytes_nothing, Except.ok.injEq] at h
    exact ⟨h.symm, rfl⟩
  | _ :: _, _, [], data, h => absurd h Emit.toBytes_fail_ne
  | c :: cs, hcs, v :: vs, data, h => by
    rw [emitEach, Emit.toBytes_append_eq_ok] at h
    obtain ⟨front, rest, rfl, hfront, hrest⟩ := h
    refine takes_inOrder_cons.mpr ⟨front, rest, rfl, hcs c (by simp) hfront, ?_⟩
    exact takes_walkAll_of_emit (fun d hd => hcs d (by simp [hd])) hrest

theorem length_of_emitAddressPart {items : List Value} {i : Nat} {data : Bytes}
    (h : (emitAddressPart items i).toBytes = .ok data) : data.length = 8 := by
  unfold emitAddressPart at h
  cases hi : items[i]? with
  | none =>
    rw [hi] at h
    exact absurd h Emit.toBytes_fail_ne
  | some v =>
    rw [hi] at h
    exact length_of_toBytes_int h

section Writes

variable {tuples frozen : Bool} {item member key value : Codec} {items : List Codec}
  {width : PrefixWidth} {order : OrderPolicy}

/-- The values that are accepted by a codec that counts its items hold some. -/
theorem emit_sequence_cases {v : Value} {data : Bytes}
    (h : ((Codec.sequence tuples item width order).emit v).toBytes = .ok data) :
    ∃ vs, (Emit.count width vs.length ++ Emit.each item.emit vs).toBytes = .ok data := by
  cases hitems : v.tupleItems? with
  | some vs =>
    simp only [emit, hitems, Emit.toBytes_after_eq_ok] at h
    exact ⟨vs, h.2⟩
  | none =>
    cases v with
    | list vs => exact ⟨vs, (Emit.toBytes_after_eq_ok.mp h).2⟩
    | _ =>
      -- a value that holds no items was refused
      have haccepts := (Emit.toBytes_after_eq_ok.mp h).1
      cases tuples with
      | true =>
        simp only [accepts, hitems, if_true] at haccepts
        cases haccepts
      | false => cases haccepts

/-- What is written for a record are the items that it shows as its fields. -/
theorem emit_items_cases {shown : Except Fault (List Value)} {fields : List Codec} {data : Bytes}
    (h : (match shown with
      | .error f => Emit.fail f
      | .ok vs => emitEach fields vs).toBytes = .ok data) :
    ∃ vs, (emitEach fields vs).toBytes = .ok data := by
  cases shown with
  | error f => exact absurd h Emit.toBytes_fail_ne
  | ok vs => exact ⟨vs, h⟩

theorem skipsWritten_accountAddress : Codec.accountAddress.SkipsWritten := by
  intro v data h
  obtain ⟨haccepts, h⟩ := Emit.toBytes_after_eq_ok.mp h
  cases v with
  | bytes x =>
    by_cases hlen : x.length = 32
    · rw [Emit.toBytes_chunk, Except.ok.injEq] at h
      exact takes_skip.mpr (h ▸ hlen)
    · rw [accepts, if_neg hlen] at haccepts
      cases haccepts
  | _ => cases haccepts

theorem skipsWritten_contractAddress : Codec.contractAddress.SkipsWritten := by
  intro v data h
  obtain ⟨haccepts, h⟩ := Emit.toBytes_after_eq_ok.mp h
  cases v with
  | record cls items =>
    obtain ⟨front, rest, rfl, hfront, hrest⟩ := Emit.toBytes_append_eq_ok.mp h
    refine takes_skip.mpr ?_
    rw [List.length_append, length_of_emitAddressPart hfront, length_of_emitAddressPart hrest]
  | _ => cases haccepts

theorem skipsWritten_bytes : (Codec.bytes width order).SkipsWritten := by
  intro v data h
  obtain ⟨haccepts, h⟩ := Emit.toBytes_after_eq_ok.mp h
  cases v with
  | bytes x => exact takes_skipCounted_bytes h
  | _ => cases haccepts

theorem skipsWritten_text : (Codec.text width order).SkipsWritten := by
  intro v data h
  obtain ⟨haccepts, h⟩ := Emit.toBytes_after_eq_ok.mp h
  cases v with
  | text s => exact takes_skipCounted_bytes h
  | _ => cases haccepts

theorem skipsWritten_sequence (hitem : item.SkipsWritten) :
    (Codec.sequence tuples item width order).SkipsWritten := by
  intro v data h
  obtain ⟨vs, h⟩ := emit_sequence_cases h
  exact takes_walk_of_counted rfl (fun _ _ _ hd => hitem hd) h

theorem skipsWritten_varTuple (hitem : item.SkipsWritten) : (Codec.varTuple item).SkipsWritten :=
  fun _ _ h =>
    takes_walk_of_counted rfl (fun _ _ _ hd => hitem hd) (Emit.toBytes_after_eq_ok.mp h).2

/-- Members without an order are not written at all. -/
theorem skipsWritten_set (hmember : member.SkipsWritten) :
    (Codec.set frozen member width order).SkipsWritten := by
  intro v data h
  have h := (Emit.toBytes_after_eq_ok.mp h).2
  cases hsorted : Value.sorted? (v.members?.getD []) with
  | none =>
    simp only [hsorted] at h
    obtain ⟨x, y, -, -, hy⟩ := Emit.toBytes_append_eq_ok.mp h
    exact absurd hy Emit.toBytes_fail_ne
  | some ws =>
    simp only [hsorted] at h
    exact takes_walk_of_counted (Value.perm_of_sortedBy? hsorted).length_eq
      (fun _ _ _ hd => hmember hd) h

theorem skipsWritten_map (hkey : key.SkipsWritten) (hvalue : value.SkipsWritten) :
    (Codec.map key value width order).SkipsWritten := by
  intro v data h
  obtain ⟨haccepts, h⟩ := Emit.toBytes_after_eq_ok.mp h
  cases v with
  | dict es =>
    cases hsorted : Value.sortedEntries? es with
    | none =>
      simp only [hsorted] at h
      obtain ⟨x, y, -, -, hy⟩ := Emit.toBytes_append_eq_ok.mp h
      exact absurd hy Emit.toBytes_fail_ne
    | some fs =>
      simp only [hsorted] at h
      refine takes_walk_of_counted (Value.perm_of_sortedBy? hsorted).length_eq
        (fun e _ d hd => ?_) h
      obtain ⟨x, y, rfl, hx, hy⟩ := Emit.toBytes_append_eq_ok.mp hd
      exact takes_inOrder_pair (hkey hx) (hvalue hy)
  | _ => cases haccepts

theorem skipsWritten_optional (hitem : item.SkipsWritten) : (Codec.optional item).SkipsWritten := by
  intro v data h
  by_cases hnone : v = .none
  · subst hnone
    rw [emit, Emit.toBytes_byte] at h
    rw [h]
    exact takes_skipOptional_none
  · rw [emit_optional hnone, Emit.toBytes_append_eq_ok] at h
    obtain ⟨front, rest, rfl, hfront, hrest⟩ := h
    rw [Emit.toBytes_byte] at hfront
    rw [hfront]
    exact takes_skipOptional_some (hitem hrest)

section Classes

variable {target : Target} {enum : ClassRef} {directions : Directions} {tag : TagWidth}
  {hashable : Bool}

theorem skipsWritten_struct (hitems : ∀ d ∈ items, d.SkipsWritten) :
    (Codec.struct target directions items).SkipsWritten := by
  intro v data h
  have h := (toBytes_after_ensureWrites.mp (Emit.toBytes_after_eq_ok.mp h).2).2
  obtain ⟨vs, h⟩ := emit_items_cases h
  exact takes_walkAll_of_emit hitems h

theorem skipsWritten_unit : (Codec.unit target directions).SkipsWritten := by
  intro v data h
  have h := (toBytes_after_ensureWrites.mp (Emit.toBytes_after_eq_ok.mp h).2).2
  rw [Emit.toBytes_nothing, Except.ok.injEq] at h
  exact ⟨h.symm, rfl⟩

theorem skipsWritten_variants {cases : List (Target × List Codec)}
    (hwidth : TagWidth.forCount cases.length = .ok tag)
    (hfields : ∀ case ∈ cases, ∀ d ∈ case.2, d.SkipsWritten) :
    (Codec.variants enum directions tag cases).SkipsWritten := by
  intro v data h
  obtain ⟨haccepts, h⟩ := Emit.toBytes_after_eq_ok.mp h
  have h := (toBytes_after_ensureWrites.mp h).2
  cases hvariant : variantOf? cases v with
  | none =>
    rw [accepts, hvariant] at haccepts
    cases haccepts
  | some i =>
    rw [hvariant] at h
    obtain ⟨front, rest, rfl, htag, hrest⟩ := Emit.toBytes_append_eq_ok.mp h
    obtain ⟨cls, items, case, rfl, hi, -⟩ := variantOf?_spec hvariant
    rw [emitCase_eq hi] at hrest
    obtain ⟨vs, hrest⟩ := emit_items_cases hrest
    refine takes_skipTagged_of_tag (p := inOrder (walkAll case.2)) ?_ htag ?_ ?_
    · rw [walkCases_eq, List.length_map]
      exact hwidth
    · rw [walkCases_eq, List.getElem?_map, hi]
      rfl
    · exact takes_walkAll_of_emit (hfields case (List.mem_of_getElem? hi)) hrest

/-- A member is a tag with nothing behind it. -/
theorem skipsWritten_members {cases : List Member}
    (hwidth : TagWidth.forCount cases.length = .ok tag) :
    (Codec.members enum hashable directions tag cases).SkipsWritten := by
  intro v data h
  obtain ⟨haccepts, h⟩ := Emit.toBytes_after_eq_ok.mp h
  have h := (toBytes_after_ensureWrites.mp h).2
  cases hmember : memberOf? enum cases v with
  | none =>
    rw [accepts, hmember] at haccepts
    cases hv : v.isHashable <;> rw [hv] at haccepts <;> cases haccepts
  | some i =>
    rw [hmember] at h
    obtain ⟨m, hi, -⟩ := memberOf?_spec hmember
    rw [← List.append_nil data]
    refine takes_skipTagged_of_tag (p := inOrder []) ?_ h ?_ ⟨rfl, rfl⟩
    · rw [List.length_map]
      exact hwidth
    · rw [List.getElem?_map, hi]
      rfl

end Classes

end Writes

/-- **Whatever is written is skipped.** By induction over the codec. Sets and maps are skipped in the
order in which they are written. -/
theorem takes_walk_of_emit {c : Codec} (hsound : c.Sound) :
    ∀ ⦃v : Value⦄ ⦃data : Bytes⦄, (c.emit v).toBytes = .ok data → c.walk.Takes data () := by
  induction c using induct with
  | h c ih =>
    have ih' : ∀ d ∈ c.children, d.SkipsWritten := fun d hd => ih d hd (hsound.child hd)
    intro v data h
    -- leaves are skipped by the length of what they write; the others have a lemma each
    cases c with
    | int format =>
      rw [emit, Emit.toBytes_after_eq_ok] at h
      exact takes_skip.mpr (length_of_toBytes_int h.2)
    | bool =>
      rw [emit, Emit.toBytes_after_eq_ok, Emit.bool, Emit.toBytes_byte] at h
      exact takes_skip.mpr (by rw [h.2]; rfl)
    | accountAddress => exact skipsWritten_accountAddress h
    | contractAddress => exact skipsWritten_contractAddress h
    | bytes width order => exact skipsWritten_bytes h
    | text width order => exact skipsWritten_text h
    | sequence tuples item width order =>
      exact skipsWritten_sequence (ih' item (by simp [children])) h
    | varTuple item => exact skipsWritten_varTuple (ih' item (by simp [children])) h
    | set frozen member width order =>
      exact skipsWritten_set (ih' member (by simp [children])) h
    | map key value width order =>
      exact skipsWritten_map (ih' key (by simp [children])) (ih' value (by simp [children])) h
    | optional item => exact skipsWritten_optional (ih' item (by simp [children])) h
    | tuple items => exact takes_walkAll_of_emit ih' (Emit.toBytes_after_eq_ok.mp h).2
    | struct target directions fields => exact skipsWritten_struct ih' h
    | unit target directions => exact skipsWritten_unit h
    | variants enum directions tag cases =>
      exact skipsWritten_variants hsound.node.1
        (fun _ hcase d hd => ih' d (mem_children_of_case hcase hd)) h
    | members enum hashable directions tag cases => exact skipsWritten_members hsound.node.1 h

end ContractKit.Codec
