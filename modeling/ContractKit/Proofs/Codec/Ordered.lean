import ContractKit.Proofs.Codec.Reads

/-!
# `Proofs/Codec/Ordered.lean`: sets and maps with and without order

A set or a map is read under one of two policies. Where equal keys are resolved, it is read as a list
of members or entries is, and these are then inserted one by one (`takes_set_unique`,
`takes_map_unique`). Where keys have to ascend, the same is read, under one more condition on the keys
(`takes_set_ascending`, `takes_map_ascending`). The condition is looked at between neighbours while the
items are read. That it holds between any two of them then, and that keys which ascend are not equal,
is what `Value.KeySpace` is for.
-/

set_option autoImplicit false

namespace ContractKit

/-- Each key is less than all that come after it. -/
def Value.Ascending (keys : List Value) : Prop := keys.Pairwise fun a b => lt? a b = some true

namespace KeyCheck

/-- Where keys may come in any order, all that can be hashed are accepted. -/
theorem accepted_of_hashable {check : KeyCheck} (hcheck : check.ascending = false) :
    ∀ {keys : List Value} {previous : Option Value}, (∀ k ∈ keys, k.isHashable = true) →
      check.Accepted previous keys
  | [], _, _ => trivial
  | k :: keys, previous, hkeys => by
    refine ⟨accepts_iff.mpr ⟨fun h => ?_, fun _ => hkeys k (by simp)⟩, ?_⟩
    · rw [hcheck] at h
      cases h
    · exact accepted_of_hashable hcheck fun l hl => hkeys l (by simp [hl])

/-- Where keys have to ascend, those that do are accepted and no others. -/
theorem accepted_iff_ascending {check : KeyCheck} {P : Value → Prop} (h : Value.KeySpace P)
    (hcheck : check.ascending = true) {keys : List Value} (hkeys : ∀ k ∈ keys, P k) :
    check.Accepted none keys ↔ Value.Ascending keys := by
  constructor
  · exact ascending_of_accepted h hcheck hkeys
  · intro hasc
    refine accepted_of_ascending (fun k hk => h.hashable (hkeys k hk)) hasc fun p hp => ?_
    cases hp

end KeyCheck

namespace Codec

variable {k c : Codec} {width : PrefixWidth} {data rest : Bytes} {v : Value}

/-! ## What is read before keys are looked at -/

/-- Members behind their count, of whatever order. -/
def readMembers (k : Codec) (width : PrefixWidth) : Read (List Value) := Read.prefixedItems width k.read

/-- Entries behind their count, of whatever order. -/
def readEntries (k c : Codec) (width : PrefixWidth) : Read (List (Value × Value)) :=
  Read.prefixedItems width (Read.entry k.read c.read)

/-- The prefix tells how many items follow. -/
theorem length_of_run_prefixedItems {α : Type} {item : Read α} {as : List α}
    (h : (Read.prefixedItems width item).run data = (.ok as, rest)) :
    as.length = LittleEndian.ofDigits (data.take width.bytes) := by
  obtain ⟨front, rfl, htakes⟩ := Read.run_eq_ok_iff.mp h
  obtain ⟨count, items, rfl, hcount, -⟩ := Read.takes_prefixedItems.mp htakes
  obtain ⟨hle, rfl⟩ := Emit.toBytes_count.mp hcount
  rw [List.append_assoc, List.take_left' (LittleEndian.length_digits _ _),
    LittleEndian.ofDigits_digits (PrefixWidth.le_maxCount_iff.mp hle)]

section Keys

variable (hsound : k.Sound) (hkey : k.isKey = true)

include hsound hkey

/-- A codec that is fit for keys has no sets and maps in it, so what it reads is known to be exact. -/
theorem readsOnly_of_isKey : k.ReadsOnly := by
  refine readsOnly hsound fun d hd => ?_
  have hnode := List.all_eq_true.mp hkey d hd
  cases d with
  | set _ _ _ _ => cases hnode
  | map _ _ _ _ => cases hnode
  | _ => rfl

theorem exact_members {vs : List Value} (h : (readMembers k width).Takes data vs) :
    ∀ x ∈ vs, k.Exact x :=
  Read.forall_of_takes_prefixedItems (fun _ _ hx => (readsOnly_of_isKey hsound hkey hx).1) h

theorem exact_entries {es : List (Value × Value)} (h : (readEntries k c width).Takes data es) :
    ∀ e ∈ es, k.Exact e.1 := by
  refine Read.forall_of_takes_prefixedItems (fun e d he => ?_) h
  obtain ⟨front, rest, -, hx, -⟩ := Read.takes_entry.mp he
  exact (readsOnly_of_isKey hsound hkey hx).1

/-! ## The two policies -/

theorem takes_set_unique {frozen : Bool} :
    (Codec.set frozen k width .unique).read.Takes data v ↔
      ∃ vs, (readMembers k width).Takes data vs ∧ v = setOf frozen vs := by
  rw [takes_set]
  refine exists_congr fun vs => and_congr_right fun hvs => and_iff_right ?_
  apply KeyCheck.accepted_of_hashable rfl
  intro x hx
  exact (keySpace_exact hkey hsound).hashable (exact_members hsound hkey hvs x hx)

theorem takes_set_ascending {frozen : Bool} :
    (Codec.set frozen k width .strictlyIncreasing).read.Takes data v ↔
      ∃ vs, (readMembers k width).Takes data vs ∧ Value.Ascending vs ∧ v = setOf frozen vs := by
  rw [takes_set]
  refine exists_congr fun vs => and_congr_right fun hvs => and_congr_left fun _ => ?_
  exact KeyCheck.accepted_iff_ascending (keySpace_exact hkey hsound) rfl
    (exact_members hsound hkey hvs)

theorem takes_map_unique :
    (Codec.map k c width .unique).read.Takes data v ↔
      ∃ es, (readEntries k c width).Takes data es ∧ v = .dict (Value.entriesOf es) := by
  rw [takes_map]
  refine exists_congr fun es => and_congr_right fun hes => and_iff_right ?_
  apply KeyCheck.accepted_of_hashable rfl
  intro x hx
  obtain ⟨e, he, rfl⟩ := List.mem_map.mp hx
  exact (keySpace_exact hkey hsound).hashable (exact_entries hsound hkey hes e he)

theorem takes_map_ascending :
    (Codec.map k c width .strictlyIncreasing).read.Takes data v ↔
      ∃ es, (readEntries k c width).Takes data es ∧ Value.Ascending (es.map (·.1)) ∧
        v = .dict (Value.entriesOf es) := by
  rw [takes_map]
  refine exists_congr fun es => and_congr_right fun hes => and_congr_left fun _ => ?_
  apply KeyCheck.accepted_iff_ascending (keySpace_exact hkey hsound) rfl
  intro x hx
  obtain ⟨e, he, rfl⟩ := List.mem_map.mp hx
  exact exact_entries hsound hkey hes e he

/-! ## Keys that ascend are kept, all of them -/

theorem membersOf_of_ascending {vs : List Value} (h : (readMembers k width).Takes data vs)
    (hasc : Value.Ascending vs) : Value.membersOf vs = vs := by
  have hspace := keySpace_exact hkey hsound
  have hexact := exact_members hsound hkey h
  have hnodup := (hspace.nodup_iff id hexact).mp (hspace.distinct_of_ascending id hexact hasc)
  rw [List.map_id] at hnodup
  exact Value.membersOf_of_nodup hspace hexact hnodup

theorem entriesOf_of_ascending {es : List (Value × Value)} (h : (readEntries k c width).Takes data es)
    (hasc : Value.Ascending (es.map (·.1))) : Value.entriesOf es = es := by
  have hspace := keySpace_exact hkey hsound
  have hexact := exact_entries hsound hkey h
  have hdistinct := hspace.distinct_of_ascending Prod.fst hexact (List.pairwise_map.mp hasc)
  exact Value.entriesOf_of_nodup hspace hexact ((hspace.nodup_iff Prod.fst hexact).mp hdistinct)

end Keys

end Codec

end ContractKit
