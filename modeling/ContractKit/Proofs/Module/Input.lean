import ContractKit.Contract.Context
import ContractKit.Proofs.Codec.Reads
import ContractKit.Proofs.Module.Format
import ContractKit.Proofs.Wire.Extent

/-!
# `Proofs/Module/Input.lean`: bytes from outside

The parameter of a call is a byte string that nobody vouches for. What can be relied on is said here
for all of them. A string that is a value is one as a whole: with more behind it, it is refused for
that, and with less it is too short (`decode_extent`). And a string that is no value is refused as such:
under the types whose keys are fit to be keys and whose classes take every value, nothing but a wire
error comes out of it, and a function that asks for its parameter gets an answer (`decode_input`).
-/

set_option autoImplicit false

namespace ContractKit

/-- **A value ends where its bytes end.** What follows it is left alone, and refused where nothing may
follow; of a string that stands for a value no proper front stands for one, since reading it needs the
bytes that are missing. -/
theorem Codec.decode_extent {c : Codec} {data : Bytes} {v : Value} (hv : c.decode data = .ok v) :
    (∀ rest, c.decodePrefix (data ++ rest) = .ok (v, rest)) ∧
      (∀ rest, rest ≠ [] → c.decode (data ++ rest) = .error (.wire .trailingData)) ∧
      ∀ front rest, data = front ++ rest → rest ≠ [] →
        c.decode front = .error (.wire .outOfData) := by
  have htakes := Codec.decode_eq_ok.mp hv
  refine ⟨fun rest => ?_, fun rest hrest => ?_, fun front rest hdata hrest => ?_⟩
  · exact Codec.decodePrefix_eq_ok.mpr ⟨data, rfl, htakes⟩
  · exact Read.runAll_append_of_takes htakes hrest
  · subst hdata
    exact Read.runAll_of_takes_append hrest htakes

namespace Module

variable {settings : LoadedSettings} {decls : List Source.Decl} {chars : Text.CharNames}
  {m : Module} {t : Ty} {c : Codec}

theorem decode_extent_routes : routeCodec.decode routeBytes = .ok routes ∧
    (∀ rest, routeCodec.decodePrefix (routeBytes ++ rest) = .ok (routes, rest)) ∧
    (∀ rest, rest ≠ [] → routeCodec.decode (routeBytes ++ rest) = .error (.wire .trailingData)) ∧
    ∀ front rest, routeBytes = front ++ rest → rest ≠ [] →
      routeCodec.decode front = .error (.wire .outOfData) := by
  have hroutes : routeCodec.decode routeBytes = .ok routes := rfl
  exact ⟨hroutes, Codec.decode_extent hroutes⟩

/-- **Every byte string is a value of the type or is refused with a wire error**, and a function that
asks for its parameter is given the one or the other. -/
theorem decode_input (hm : ofDecls settings decls chars = .ok m) (hc : Codec.ofType m.facts t = .ok c)
    (hkeys : ∀ d ∈ c.parts, d.keysFit = true) (hbuilds : ∀ d ∈ c.parts, d.buildsAll = true) :
    (∀ data : Bytes, (∃ v, c.decode data = .ok v ∧ c.Admits v) ∨
        ∃ e, c.decode data = .error (.wire e)) ∧
      ∀ h : Host, (∃ v, h.parseParameter c = .ok (.ok v) ∧ c.Admits v) ∨
        ∃ e, h.parseParameter c = .ok (.err (.fault (.wire e))) := by
  have hsound := sound_of_ofType hm hc
  have hdecode : ∀ data : Bytes, (∃ v, c.decode data = .ok v ∧ c.Admits v) ∨
      ∃ e, c.decode data = .error (.wire e) := by
    intro data
    cases hv : c.decode data with
    | ok v => exact Or.inl ⟨v, rfl, Codec.readsOnly hsound hkeys (Codec.decode_eq_ok.mp hv)⟩
    | error f =>
      have hwithin : c.read.Within fun f => ∃ e, f = .wire e :=
        Codec.within_read (fun e => ⟨e, rfl⟩) hsound hkeys hbuilds
      obtain ⟨e, rfl⟩ := hwithin.runAll ⟨_, rfl⟩ data f hv
      exact Or.inr ⟨e, rfl⟩
  refine ⟨hdecode, fun h => ?_⟩
  rcases hdecode h.parameter with ⟨v, hv, hadmits⟩ | ⟨e, he⟩
  · exact Or.inl ⟨v, by rw [Host.parseParameter, hv], hadmits⟩
  · right
    refine ⟨e, ?_⟩
    rw [Host.parseParameter, he]
    rfl

theorem decode_input_routes : ∃ m, ofDecls (.ok {}) pointDecls = .ok m ∧
    Codec.ofType m.facts routeType = .ok routeCodec ∧
    (∀ d ∈ routeCodec.parts, d.keysFit = true) ∧ (∀ d ∈ routeCodec.parts, d.buildsAll = true) ∧
    (∀ data : Bytes, (∃ v, routeCodec.decode data = .ok v ∧ routeCodec.Admits v) ∨
        ∃ e, routeCodec.decode data = .error (.wire e)) ∧
      ∀ h : Host, (∃ v, h.parseParameter routeCodec = .ok (.ok v) ∧ routeCodec.Admits v) ∨
        ∃ e, h.parseParameter routeCodec = .ok (.err (.fault (.wire e))) := by
  obtain ⟨m, hm, hc, -⟩ := exists_pointModule
  exact ⟨m, hm, hc, regular_routeCodec.keys, regular_routeCodec.builds,
    decode_input hm hc regular_routeCodec.keys regular_routeCodec.builds⟩

end Module

end ContractKit
