import ContractKit.Module.Declare
import ContractKit.Proofs.Codec.Faults
import ContractKit.Proofs.Module.Described

/-!
# `Proofs/Module/Directions.lean`: what can be written and what can be read

A codec can be used in a direction when every class in it derives that, however deep the class lies
(`Codec.can_iff_parts`), and deriving looks at the codecs of the fields before it promises the same for
the class itself (`can_of_codec`). So what a codec says about itself is true: no class that it
comes across stops it for not deriving what it does.

A class may still reject the values of its fields when it is read. That is a fault under a word of the
contract, which is no word of the library, so it is never taken for a direction that is missing.
-/

set_option autoImplicit false

namespace ContractKit

namespace Module

/-- What deriving leaves for a class can be used in the derived directions and in no others. -/
theorem codec_of_derive {m m' : Module} {directions : Directions} {d : Decorated}
    (h : m.deriveCodec directions d = .ok m') :
    ∃ place c, d = .cls place ∧ (m'.facts (.declared place)).codec = some c ∧
      c.canWrite = directions.writes ∧ c.canRead = directions.reads := by
  obtain ⟨place, e, shape, c, hd, he, -, hc, rfl⟩ := deriveCodec_cases h
  exact ⟨place, c, hd, by rw [facts_modifyClass he], can_of_codec hc⟩

/-- **Derived directions are closed under nesting.** The codec that is recorded for a class can write
and read exactly as was derived for it. Whatever a codec is built of, if it can write then no value
makes it fail as a class does that does not derive writing; and if it can read then no bytes make it
fail as a class does that does not derive reading, whatever the classes in it reject. -/
theorem usable_directions :
    (∀ (m : Module) (settings : LoadedSettings) (d : Decorated) (directions : Directions)
      (m' : Module) (d' : Decorated), m.decorate settings d (.codec directions) = .ok (m', d') →
      ∃ place c, d = .cls place ∧ (m'.facts (.declared place)).codec = some c ∧
        c.canWrite = directions.writes ∧ c.canRead = directions.reads) ∧
    ∀ c : Codec,
      (c.canWrite = true → ∀ v f, c.encode v = .error f → f.kind ≠ .wire .unsupported) ∧
      (c.canRead = true → ∀ data f, c.decode data = .error f → f.kind ≠ .wire .unsupported) := by
  refine ⟨fun m settings d directions m' d' h => ?_, fun c => ⟨fun hcan v f h => ?_, ?_⟩⟩
  · obtain ⟨derived, hderive, h⟩ := bind_eq_ok.mp h
    obtain ⟨rfl, rfl⟩ := Prod.mk.inj (pure_eq_ok.mp h)
    exact codec_of_derive hderive
  · exact Codec.kind_of_encode hcan h
  · intro hcan data f h
    exact Codec.kind_of_decode hcan h

section Shares

/-- A class that rejects a number of its field under the library's word for a type that does not derive
reading, and a class that holds a list of those. -/
def shareDecls : List Source.Decl :=
  [.dataclass "Share" [⟨"parts", .type (.sized .u8), true, none⟩] false false none
      (some ⟨"parts", .int 0, .wire .unsupported, "no parts"⟩) [.codec ⟨true, true⟩],
    .dataclass "Shares" [⟨"items", .list (.named "Share"), true, none⟩] false false none none []]

/-- The class of shares, with what it rejects. -/
def share : Target :=
  ⟨⟨⟨.declared 0, "Share", home⟩, ["parts"], .named false none, []⟩,
    some ⟨"parts", .int 0, .wire .unsupported, "no parts"⟩⟩

/-- The codec of shares. -/
def shareCodec : Codec := .struct share ⟨true, true⟩ [.int ⟨1, false⟩]

/-- The word is none that the class can raise, which is what comes out. -/
theorem decode_share : shareCodec.decode [0] = .error (.raised .key "UnsupportedTypeError") := by
  have hrejected : (Value.int 0).beq (.int 0) = true := by simp [Value.beq, Value.number?]
  have hbuild : share.build [.int 0] = .error (.raised .key "UnsupportedTypeError") :=
    if_pos hrejected
  show (Read.ofExcept (share.build [.int 0])).runAll [] = _
  rw [hbuild]
  rfl

/-- Writing is derived for the class that holds shares, and reading a share fails by the share's own
doing. -/
theorem usable_directions_shares : ∃ m m' d' c, ofDecls (.ok {}) shareDecls = .ok m ∧
    m.decorate (.ok {}) (.cls 1) (.codec ⟨true, false⟩) = .ok (m', d') ∧
    (m'.facts (.declared 1)).codec = some c ∧ c.canWrite = true ∧ c.canRead = false ∧
    (m.facts (.declared 0)).codec = some shareCodec ∧ shareCodec.canWrite = true ∧
    (∃ f, shareCodec.encode .none = .error f ∧ f.kind ≠ .wire .unsupported) ∧
    shareCodec.canRead = true ∧
    ∃ f, shareCodec.decode [0] = .error f ∧ f.kind ≠ .wire .unsupported := by
  obtain ⟨m, m', d', hm, hderive, hshare⟩ : ∃ m m' d', ofDecls (.ok {}) shareDecls = .ok m ∧
      m.decorate (.ok {}) (.cls 1) (.codec ⟨true, false⟩) = .ok (m', d') ∧
      (m.facts (.declared 0)).codec = some shareCodec := ⟨_, _, _, rfl, rfl, rfl⟩
  obtain ⟨hrecorded, hcodecs⟩ := usable_directions
  obtain ⟨place, c, hd, hc, hwrites, hreads⟩ := hrecorded _ _ _ _ _ _ hderive
  cases hd
  have hencode : ∃ f, shareCodec.encode .none = .error f := ⟨_, rfl⟩
  obtain ⟨f, hf⟩ := hencode
  have hrefused := (hcodecs shareCodec).1 rfl .none f hf
  have hrejected := (hcodecs shareCodec).2 rfl [0] _ decode_share
  exact ⟨m, m', d', c, hm, hderive, hc, hwrites, hreads, hshare, rfl, ⟨f, hf, hrefused⟩, rfl, _,
    decode_share, hrejected⟩

end Shares

end Module

end ContractKit
