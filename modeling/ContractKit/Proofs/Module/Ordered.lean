import ContractKit.Proofs.Codec.Ordered
import ContractKit.Proofs.Module.Keys

/-!
# `Proofs/Module/Ordered.lean`: what asking for ordered keys changes

A set or a map whose keys have to ascend reads less than one that resolves equal keys, and nothing else
(`ordered_decodePrefix`). Both read the same members or entries. The one inserts them from left to
right, so that a key keeps the last of its values. The other takes only those whose keys ascend, and
then there is nothing to resolve: it holds as many as the prefix says.
-/

set_option autoImplicit false

namespace ContractKit

namespace Codec

/-- What a codec reads at the front of a byte string, if it takes what a program takes and makes
something of the result. -/
theorem decodePrefix_iff_run {α : Type} {c : Codec} {p : Read α} {Q : α → Prop} {v : Value}
    (h : ∀ data, c.read.Takes data v ↔ ∃ a, p.Takes data a ∧ Q a) {data rest : Bytes} :
    c.decodePrefix data = .ok (v, rest) ↔ ∃ a, p.run data = (.ok a, rest) ∧ Q a := by
  rw [decodePrefix_eq_ok]
  constructor
  · rintro ⟨front, rfl, htakes⟩
    obtain ⟨a, ha, hQ⟩ := (h front).mp htakes
    exact ⟨a, Read.run_eq_ok_iff.mpr ⟨front, rfl, ha⟩, hQ⟩
  · rintro ⟨a, ha, hQ⟩
    obtain ⟨front, rfl, htakes⟩ := Read.run_eq_ok_iff.mp ha
    exact ⟨front, rfl, (h front).mpr ⟨a, htakes, hQ⟩⟩

/-- A codec that asks for more than another one of what a program reads, and is otherwise the same,
reads where the other does and what the program reads is as it asks for. -/
theorem decodePrefix_iff_and {α : Type} {strict loose : Codec} {p : Read α} {Q : α → Prop}
    {f : α → Value} {data rest : Bytes} {v : Value}
    (hstrict : strict.decodePrefix data = .ok (v, rest) ↔
      ∃ a, p.run data = (.ok a, rest) ∧ Q a ∧ v = f a)
    (hloose : loose.decodePrefix data = .ok (v, rest) ↔
      ∃ a, p.run data = (.ok a, rest) ∧ v = f a) :
    strict.decodePrefix data = .ok (v, rest) ↔
      loose.decodePrefix data = .ok (v, rest) ∧ ∃ a, p.run data = (.ok a, rest) ∧ Q a := by
  rw [hstrict, hloose]
  constructor
  · rintro ⟨a, ha, hQ, hv⟩
    exact ⟨⟨a, ha, hv⟩, a, ha, hQ⟩
  · rintro ⟨⟨a, ha, hv⟩, b, hb, hQ⟩
    -- a program has one result on a byte string
    rw [ha] at hb
    cases hb
    exact ⟨a, ha, hQ, hv⟩

end Codec

namespace Module

open Value (Ascending IsLast membersOf entriesOf)

variable {settings : LoadedSettings} {decls : List Source.Decl} {chars : Text.CharNames}
  {m : Module} {t : Ty} {k : Codec}

/-- **Asking for ordered keys only ever refuses.** Where keys need not ascend, the members or entries that
stand in the bytes are put in one after the other, and the last value of a key counts. Where they have
to, the same is read as long as they do ascend, and nothing else is; then no two are equal, and the count
in the bytes is the size of what is read. -/
theorem ordered_decodePrefix (hm : ofDecls settings decls chars = .ok m)
    (hk : Codec.ofType m.facts t = .ok k) (hkey : k.isKey = true) (width : PrefixWidth)
    (data rest : Bytes) :
    (∀ frozen v,
      ((Codec.set frozen k width .unique).decodePrefix data = .ok (v, rest) ↔
        ∃ vs, (k.readMembers width).run data = (.ok vs, rest) ∧ v = Codec.setOf frozen vs) ∧
      ((Codec.set frozen k width .strictlyIncreasing).decodePrefix data = .ok (v, rest) ↔
        (Codec.set frozen k width .unique).decodePrefix data = .ok (v, rest) ∧
          ∃ vs, (k.readMembers width).run data = (.ok vs, rest) ∧ Ascending vs) ∧
      ((Codec.set frozen k width .strictlyIncreasing).decodePrefix data = .ok (v, rest) →
        v.size? = some (LittleEndian.ofDigits (data.take width.bytes)))) ∧
    (∀ c v,
      ((Codec.map k c width .unique).decodePrefix data = .ok (v, rest) ↔
        ∃ es, (k.readEntries c width).run data = (.ok es, rest) ∧ v = .dict (entriesOf es)) ∧
      ((Codec.map k c width .strictlyIncreasing).decodePrefix data = .ok (v, rest) ↔
        (Codec.map k c width .unique).decodePrefix data = .ok (v, rest) ∧
          ∃ es, (k.readEntries c width).run data = (.ok es, rest) ∧ Ascending (es.map (·.1))) ∧
      ((Codec.map k c width .strictlyIncreasing).decodePrefix data = .ok (v, rest) →
        v.size? = some (LittleEndian.ofDigits (data.take width.bytes)))) ∧
    (∀ vs, (k.readMembers width).run data = (.ok vs, rest) → ∀ x, x ∈ membersOf vs ↔ x ∈ vs) ∧
    ∀ c es, (k.readEntries c width).run data = (.ok es, rest) →
      ∀ e, e ∈ entriesOf es ↔ IsLast es e := by
  have hsound := sound_of_ofType hm hk
  have hspace := Codec.keySpace_exact hkey hsound
  -- both decoders read the same members; they differ in what they make of them
  refine ⟨fun frozen v => ?_, fun c v => ?_, fun vs hvs x => ?_, fun c es hes e => ?_⟩
  · have hunique : (Codec.set frozen k width .unique).decodePrefix data = .ok (v, rest) ↔ _ :=
      Codec.decodePrefix_iff_run fun _ => Codec.takes_set_unique hsound hkey
    have hstrict :
        (Codec.set frozen k width .strictlyIncreasing).decodePrefix data = .ok (v, rest) ↔ _ :=
      Codec.decodePrefix_iff_run fun _ => Codec.takes_set_ascending hsound hkey
    refine ⟨hunique, Codec.decodePrefix_iff_and hstrict hunique, fun h => ?_⟩
    obtain ⟨vs, hvs, hasc, rfl⟩ := hstrict.mp h
    obtain ⟨front, -, htakes⟩ := Read.run_eq_ok_iff.mp hvs
    rw [← Codec.length_of_run_prefixedItems hvs, Codec.setOf,
      Codec.membersOf_of_ascending hsound hkey htakes hasc]
    cases frozen <;> rfl
  · have hunique : (Codec.map k c width .unique).decodePrefix data = .ok (v, rest) ↔ _ :=
      Codec.decodePrefix_iff_run fun _ => Codec.takes_map_unique hsound hkey
    have hstrict :
        (Codec.map k c width .strictlyIncreasing).decodePrefix data = .ok (v, rest) ↔ _ :=
      Codec.decodePrefix_iff_run fun _ => Codec.takes_map_ascending hsound hkey
    refine ⟨hunique, Codec.decodePrefix_iff_and hstrict hunique, fun h => ?_⟩
    obtain ⟨es, hes, hasc, rfl⟩ := hstrict.mp h
    obtain ⟨front, -, htakes⟩ := Read.run_eq_ok_iff.mp hes
    rw [← Codec.length_of_run_prefixedItems hes,
      Codec.entriesOf_of_ascending hsound hkey htakes hasc]
    rfl
  · obtain ⟨front, -, htakes⟩ := Read.run_eq_ok_iff.mp hvs
    exact Value.mem_membersOf hspace (Codec.exact_members hsound hkey htakes)
  · obtain ⟨front, -, htakes⟩ := Read.run_eq_ok_iff.mp hes
    exact Value.mem_entriesOf hspace (Codec.exact_entries hsound hkey htakes)

/-- Two entries with the same point: the one policy keeps the second value, the other refuses both. -/
theorem ordered_decodePrefix_points : ∃ m, ofDecls (.ok {}) pointDecls = .ok m ∧
    Codec.ofType m.facts (.cls point.ref) = .ok pointCodec ∧ pointCodec.isKey = true ∧
    (Codec.map pointCodec .bool .one .unique).decodePrefix [2, 1, 0, 1, 0, 1, 0, 1, 1, 7] =
      .ok (.dict [(.record point [.int 1, .bool true], .bool true)], [7]) ∧
    ∀ v, (Codec.map pointCodec .bool .one .strictlyIncreasing).decodePrefix
      [2, 1, 0, 1, 0, 1, 0, 1, 1, 7] ≠ .ok (v, [7]) := by
  have hpoint : ∃ m, ofDecls (.ok {}) pointDecls = .ok m ∧
      Codec.ofType m.facts (.cls point.ref) = .ok pointCodec := ⟨_, rfl, rfl⟩
  obtain ⟨m, hm, hk⟩ := hpoint
  have hread := (ordered_decodePrefix hm hk rfl .one [2, 1, 0, 1, 0, 1, 0, 1, 1, 7] [7]).2.1 .bool
  have hrun : (pointCodec.readEntries .bool .one).run [2, 1, 0, 1, 0, 1, 0, 1, 1, 7] =
      (.ok [(.record point [.int 1, .bool true], .bool false),
        (.record point [.int 1, .bool true], .bool true)], [7]) := rfl
  have hkept : entriesOf [(.record point [.int 1, .bool true], .bool false),
      (.record point [.int 1, .bool true], .bool true)] =
      [(.record point [.int 1, .bool true], .bool true)] := by
    simp [entriesOf, Value.insertEntry, Value.beq, Value.beqAll, Value.number?,
      RecordClass.isPositional, point]
  refine ⟨m, hm, hk, rfl, (hread _).1.mpr ⟨_, hrun, by rw [hkept]⟩, fun v hv => ?_⟩
  obtain ⟨-, es, hes, hasc⟩ := (hread v).2.1.mp hv
  rw [hrun] at hes
  cases hes
  -- the point is not less than itself
  have hlt := (List.pairwise_cons.mp hasc).1 (.record point [.int 1, .bool true]) (by simp)
  have hspace := Codec.keySpace_exact (c := pointCodec) rfl (sound_of_ofType hm hk)
  rw [hspace.lt_irrefl ⟨_, rfl, _, _, rfl, ⟨_, rfl⟩, _, _, rfl, ⟨_, rfl⟩, rfl⟩] at hlt
  cases hlt

end Module

end ContractKit
