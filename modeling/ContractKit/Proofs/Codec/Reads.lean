import ContractKit.Proofs.Codec.Admitted
import ContractKit.Proofs.Codec.Layout
import ContractKit.Proofs.Value.Distinct
import ContractKit.Proofs.Wire.Failing

/-!
# `Proofs/Codec/Reads.lean`: what arbitrary bytes are read as

Nothing is known here about where the bytes come from. What is read from them, if anything is, is a
value that the codec is for (`readsOnly`); and if nothing is, then it is a wire error that says so
(`within_read`). The second depends on the first: that keys can be hashed and compared while they are
read is known because they are values of the type of keys, and these have an order.

The directions that a class derives do not matter. What cannot be read at all fails with a wire error
as well.
-/

set_option autoImplicit false

namespace ContractKit.Codec

/-! ## What is read -/

/-- Nothing is read but values that the codec is for. -/
def ReadsOnly (c : Codec) : Prop := ∀ ⦃v : Value⦄ ⦃data : Bytes⦄, c.read.Takes data v → c.Admits v

/-- What the writer is known to take back has passed the check before it was written. -/
theorem Faithful.readsOnly {c : Codec} (h : c.Faithful)
    (hcheck : ∀ v data, (c.emit v).toBytes = .ok data → c.check v = .ok ()) : c.ReadsOnly := by
  intro v data hread
  obtain ⟨hv, hdata⟩ := (h v data).mp hread
  exact ⟨hv, hcheck v data hdata⟩

theorem readsOnly_unit (target : Target) (directions : Directions) :
    (Codec.unit target directions).ReadsOnly := by
  intro v data hread
  obtain ⟨-, -, hbuild⟩ := takes_unit.mp hread
  obtain rfl := eq_of_build hbuild
  exact ⟨rfl, instanceOf_record⟩

theorem readsOnly_members {enum : ClassRef} {hashable : Bool} {directions : Directions}
    {tag : TagWidth} {cases : List Member}
    (hdistinct : cases.Pairwise fun a b => (a.value enum).beq (b.value enum) = false) :
    (Codec.members enum hashable directions tag cases).ReadsOnly := by
  intro v data hread
  obtain ⟨-, i, m, -, hm, rfl⟩ := takes_members.mp hread
  exact admits_member hdistinct (List.mem_of_getElem? hm)

theorem readsOnly_optional {item : Codec} (h : item.ReadsOnly) : (Codec.optional item).ReadsOnly := by
  intro v data hread
  apply admits_optional
  rcases takes_optional.mp hread with ⟨-, hv⟩ | ⟨rest, -, hrest⟩
  · exact Or.inl hv
  · exact Or.inr (h hrest)

/-! ### Lists, sets and maps -/

theorem ReadsOnly.items {item : Codec} (h : item.ReadsOnly) {width : PrefixWidth} {vs : List Value}
    {data : Bytes} (hread : (Read.prefixedItems width item.read).Takes data vs) :
    ∀ x ∈ vs, item.Admits x :=
  Read.forall_of_takes_prefixedItems (fun _ _ hx => h hx) hread

theorem readsOnly_sequence {tuples : Bool} {item : Codec} {width : PrefixWidth} {order : OrderPolicy}
    (h : item.ReadsOnly) : (Codec.sequence tuples item width order).ReadsOnly := by
  intro v data hread
  obtain ⟨vs, hvs, rfl⟩ := takes_sequence.mp hread
  exact admits_sequence (h.items hvs)

theorem readsOnly_varTuple {item : Codec} (h : item.ReadsOnly) : (Codec.varTuple item).ReadsOnly := by
  intro v data hread
  obtain ⟨vs, hvs, rfl⟩ := takes_varTuple.mp hread
  exact admits_varTuple (h.items hvs)

theorem readsOnly_set {frozen : Bool} {member : Codec} {width : PrefixWidth} {order : OrderPolicy}
    (hspace : Value.KeySpace member.Exact) (h : member.ReadsOnly) :
    (Codec.set frozen member width order).ReadsOnly := by
  intro v data hread
  obtain ⟨vs, hvs, -, rfl⟩ := takes_set.mp hread
  have hitems := h.items hvs
  have hexact : ∀ x ∈ vs, member.Exact x := fun x hx => (hitems x hx).1
  have hsub := Value.membersOf_sublist hspace hexact
  exact admits_setOf (fun x hx => hitems x (hsub.subset hx)) (Value.distinct_membersOf hspace hexact)

theorem readsOnly_map {key value : Codec} {width : PrefixWidth} {order : OrderPolicy}
    (hspace : Value.KeySpace key.Exact) (hk : key.ReadsOnly) (hv : value.ReadsOnly) :
    (Codec.map key value width order).ReadsOnly := by
  intro v data hread
  obtain ⟨es, hes, -, rfl⟩ := takes_map.mp hread
  have hentries : ∀ e ∈ es, key.Admits e.1 ∧ value.Admits e.2 := by
    refine Read.forall_of_takes_prefixedItems (fun e d he => ?_) hes
    obtain ⟨front, rest, -, hx, hy⟩ := Read.takes_entry.mp he
    exact ⟨hk hx, hv hy⟩
  have hexact : ∀ e ∈ es, key.Exact e.1 := fun e he => (hentries e he).1.1
  have hsub := Value.entriesOf_subperm hspace hexact
  exact admits_map (fun e he => hentries e (hsub.subset he)) (Value.distinct_entriesOf hspace hexact)

/-! ### Fields -/

theorem readsOnly_fields {cs : List Codec} (hcs : ∀ c ∈ cs, c.ReadsOnly) :
    ∀ {vs : List Value} {data : Bytes}, (readEach cs).Takes data vs → List.Forall₂ Admits cs vs := by
  induction cs with
  | nil =>
    intro vs data h
    obtain ⟨-, rfl⟩ : data = [] ∧ vs = [] := h
    exact .nil
  | cons c cs ih =>
    intro vs data h
    obtain ⟨x, xs, front, rest, rfl, -, hx, hxs⟩ := takes_readEach_cons.mp h
    exact .cons (hcs c (by simp) hx) (ih (fun d hd => hcs d (by simp [hd])) hxs)

theorem readsOnly_tuple {items : List Codec} (h : ∀ c ∈ items, c.ReadsOnly) :
    (Codec.tuple items).ReadsOnly := by
  intro v data hread
  obtain ⟨vs, hvs, rfl⟩ := takes_tuple.mp hread
  exact admits_tuple (readsOnly_fields h hvs)

theorem readsOnly_struct {target : Target} {directions : Directions} {fields : List Codec}
    (h : ∀ c ∈ fields, c.ReadsOnly) : (Codec.struct target directions fields).ReadsOnly := by
  intro v data hread
  obtain ⟨-, vs, hvs, hbuild⟩ := takes_struct.mp hread
  obtain rfl := eq_of_build hbuild
  exact admits_struct (readsOnly_fields h hvs)

theorem readsOnly_variants {enum : ClassRef} {directions : Directions} {tag : TagWidth}
    {cases : List (Target × List Codec)}
    (hsame : ∀ a ∈ cases, ∀ b ∈ cases, a.1.cls.ref.id = b.1.cls.ref.id → a = b)
    (h : ∀ case ∈ cases, ∀ c ∈ case.2, c.ReadsOnly) :
    (Codec.variants enum directions tag cases).ReadsOnly := by
  intro v data hread
  obtain ⟨-, i, case, vs, front, rest, -, -, hi, hvs, hbuild⟩ := takes_variants.mp hread
  have hcase := List.mem_of_getElem? hi
  obtain rfl := eq_of_build hbuild
  exact admits_variant hsame hcase (readsOnly_fields (h case hcase) hvs)

/-- **What is read is a value of exactly the type, and one that the codec accepts all the way down.** By
induction over the codec. It is for the keys of sets and maps that these have to be fit: those that are
accepted are then the only ones of their value. -/
theorem readsOnly {c : Codec} (hsound : c.Sound) (hkeys : ∀ d ∈ c.parts, d.keysFit = true) :
    c.ReadsOnly := by
  induction c using induct with
  | h c ih =>
    have ih' : ∀ d ∈ c.children, d.ReadsOnly := fun d hd =>
      ih d hd (hsound.child hd) fun e he => hkeys e (mem_parts_of_child hd he)
    have hnode := hkeys c (self_mem_parts c)
    -- leaves are read back as they were written; sets and maps ask for the order of their keys
    cases c with
    | int format =>
      exact (faithful_int format).readsOnly fun v data h => (Emit.toBytes_after_eq_ok.mp h).1
    | bool => exact faithful_bool.readsOnly fun v data h => (Emit.toBytes_after_eq_ok.mp h).1
    | accountAddress =>
      exact faithful_accountAddress.readsOnly fun v data h => (Emit.toBytes_after_eq_ok.mp h).1
    | contractAddress =>
      exact faithful_contractAddress.readsOnly fun v data h => (Emit.toBytes_after_eq_ok.mp h).1
    | bytes width order =>
      exact (faithful_bytes width order).readsOnly fun v data h => (Emit.toBytes_after_eq_ok.mp h).1
    | text width order =>
      exact (faithful_text width order).readsOnly fun v data h => (Emit.toBytes_after_eq_ok.mp h).1
    | unit target directions => exact readsOnly_unit target directions
    | members enum hashable directions tag cases => exact readsOnly_members hsound.node.2
    | sequence tuples item width order => exact readsOnly_sequence (ih' item (by simp [children]))
    | varTuple item => exact readsOnly_varTuple (ih' item (by simp [children]))
    | optional item => exact readsOnly_optional (ih' item (by simp [children]))
    | set frozen member width order =>
      have hmember : member ∈ (Codec.set frozen member width order).children := by simp [children]
      exact readsOnly_set (keySpace_exact hnode (hsound.child hmember)) (ih' member hmember)
    | map key value width order =>
      have hkey : key ∈ (Codec.map key value width order).children := by simp [children]
      exact readsOnly_map (keySpace_exact hnode (hsound.child hkey)) (ih' key hkey)
        (ih' value (by simp [children]))
    | tuple items => exact readsOnly_tuple ih'
    | struct target directions fields => exact readsOnly_struct ih'
    | variants enum directions tag cases =>
      exact readsOnly_variants hsound.node.2 fun case hcase c hc =>
        ih' c (mem_children_of_case hcase hc)

/-! ## How reading fails -/

section Failing

open Read (Within)

variable {P : Fault → Prop} (hwire : ∀ error, P (.wire error))

include hwire

theorem within_ensureReads (target : ClassRef) (directions : Directions) :
    (ensureReads target directions).Within P := by
  unfold ensureReads
  split
  · exact .done ()
  · exact .fail (hwire _)

theorem within_readTag (tag : TagWidth) : (readTag tag).Within P :=
  Read.Confined.within (.map (.getBytes _)) hwire

omit hwire in
theorem within_readEach {cs : List Codec} (hcs : ∀ d ∈ cs, d.read.Within P) :
    (readEach cs).Within P := by
  induction cs with
  | nil => exact .done []
  | cons d cs ih =>
    rw [readEach]
    exact .bind (hcs d (by simp)) fun _ _ _ => .map (ih fun d' hd' => hcs d' (by simp [hd']))

omit hwire in
/-- A class that accepts all values takes whatever was read for its fields. -/
theorem within_readFields {target : Target} {cs : List Codec}
    (hbuilds : target.rejection.isNone = true) (hcs : ∀ d ∈ cs, d.read.Within P) :
    ((readEach cs).bind fun vs => Read.ofExcept (target.build vs)).Within P := by
  refine .bind (within_readEach hcs) fun vs _ _ => ?_
  rw [build_eq hbuilds]
  exact .done _

/-- **Where keys are fit to be keys and no class rejects what it is given, nothing but a wire error
comes out of reading.** -/
theorem within_read {c : Codec} (hsound : c.Sound) (hkeys : ∀ d ∈ c.parts, d.keysFit = true)
    (hbuilds : ∀ d ∈ c.parts, d.buildsAll = true) : c.read.Within P := by
  induction c using induct with
  | h c ih =>
    have ih' : ∀ d ∈ c.children, d.read.Within P := fun d hd =>
      ih d hd (hsound.child hd) (fun e he => hkeys e (mem_parts_of_child hd he))
        fun e he => hbuilds e (mem_parts_of_child hd he)
    have hreadsOnly : ∀ d ∈ c.children, d.ReadsOnly := fun d hd =>
      readsOnly (hsound.child hd) fun e he => hkeys e (mem_parts_of_child hd he)
    have hfit := hkeys c (self_mem_parts c)
    have hbuild := hbuilds c (self_mem_parts c)
    cases c with
    | int format => exact Read.Confined.within (.map (.int format)) hwire
    | bool => exact Read.Confined.within (.map (.bool fun _ => hwire _)) hwire
    | accountAddress => exact Read.Confined.within (.map (.getBytes 32)) hwire
    | contractAddress =>
      exact Read.Confined.within (.bind (.int _) fun _ => .map (.int _)) hwire
    | bytes width order => exact Read.Confined.within (.map (.prefixedBytes width)) hwire
    | text width order => exact Read.Confined.within (.map (.prefixedText (hwire _) width)) hwire
    | sequence tuples item width order =>
      exact .map (.prefixedItems (ih' item (by simp [children])) hwire width)
    | varTuple item => exact .map (.prefixedItems (ih' item (by simp [children])) hwire _)
    | set frozen member width order =>
      have hmember : member ∈ (Codec.set frozen member width order).children := by simp [children]
      -- what was read before is a value of the type of members, so it can be compared
      exact .map (.keyed (keySpace_exact hfit (hsound.child hmember)) hwire (ih' member hmember)
        (fun v data h => (hreadsOnly member hmember h).1) width _)
    | map key value width order =>
      have hkey : key ∈ (Codec.map key value width order).children := by simp [children]
      refine .map (.keyed (keySpace_exact hfit (hsound.child hkey)) hwire
        (.entry (ih' key hkey) (ih' value (by simp [children]))) (fun e data h => ?_) width _)
      obtain ⟨front, rest, -, hk, -⟩ := Read.takes_entry.mp h
      exact (hreadsOnly key hkey hk).1
    | optional item =>
      refine .byte (hwire _) fun tag => ?_
      split
      · exact .done _
      split
      · exact ih' item (by simp [children])
      · exact .fail (hwire _)
    | tuple items => exact .map (within_readEach ih')
    | struct target directions fields =>
      exact .bind (within_ensureReads hwire _ _) fun _ _ _ => within_readFields hbuild ih'
    | unit target directions =>
      refine .bind (within_ensureReads hwire _ _) fun _ _ _ => ?_
      rw [build_eq hbuild]
      exact .done _
    | variants enum directions tag cases =>
      refine .bind (within_ensureReads hwire _ _) fun _ _ _ =>
        .bind (within_readTag hwire tag) fun i _ _ => ?_
      rw [readCase_eq]
      split
      · rename_i case hcase
        have hmem := List.mem_of_getElem? hcase
        exact within_readFields (List.all_eq_true.mp hbuild case hmem) fun d hd =>
          ih' d (mem_children_of_case hmem hd)
      · exact .fail (hwire _)
    | members enum hashable directions tag cases =>
      refine .bind (within_ensureReads hwire _ _) fun _ _ _ =>
        .bind (within_readTag hwire tag) fun i _ _ => ?_
      split
      · exact .done _
      · exact .fail (hwire _)

end Failing

end ContractKit.Codec
