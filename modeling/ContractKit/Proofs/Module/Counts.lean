import ContractKit.Proofs.Codec.Size
import ContractKit.Proofs.Module.Format

/-!
# `Proofs/Module/Counts.lean`: counts and the bytes behind them

A count is eight bytes at most and may say anything. Where the items of all containers of a type have a
size, it cannot make a reader go on for longer than there are bytes (`counts_bounded`): as many items
are read as there are bytes, or fewer, and a count above that is found out when the bytes run out.
-/

set_option autoImplicit false

namespace ContractKit.Module

variable {settings : LoadedSettings} {decls : List Source.Decl} {chars : Text.CharNames}
  {m : Module} {t : Ty} {c : Codec}

/-- **Counts cannot make more of the bytes than there is.** A value takes its smallest size at least,
which some value has, and no container in it reads more items than there are bytes. -/
theorem counts_bounded (hm : ofDecls settings decls chars = .ok m) (hc : Codec.ofType m.facts t = .ok c)
    (hsized : ∀ d ∈ c.parts, d.itemsSized = true) :
    (∀ data v rest, c.decodePrefix data = .ok (v, rest) → c.minSize + rest.length ≤ data.length) ∧
    (∀ v data, c.encode v = .ok data → c.minSize ≤ data.length) ∧
    (c.Readable → ∃ data v, c.decode data = .ok v ∧ data.length = c.minSize) ∧
    ∀ d ∈ c.parts, ∀ data,
      d.read.run data = ((d.tally data).outcome, (d.tally data).rest) ∧
      (d.tally data).items ≤ data.length ∧
      ∀ width n rest, d.countWidth? = some width → (Read.count width).run data = (.ok n, rest) →
        rest.length < n → ∃ f, d.decodePrefix data = .error f := by
  have hsound := sound_of_ofType hm hc
  refine ⟨fun data v rest h => ?_, fun v data h => ?_, fun hreadable => ?_, fun d hd data => ?_⟩
  · obtain ⟨front, rfl, hread⟩ := Codec.decodePrefix_eq_ok.mp h
    have hle := Codec.atLeast_read hsound hread
    rw [List.length_append]
    omega
  · exact Codec.minSize_le_of_emit hsound h
  · obtain ⟨data, v, hread, hlen⟩ := Codec.exists_takes_minSize hsound hreadable
    exact ⟨data, v, Codec.decode_eq_ok.mpr hread, hlen⟩
  · have hpart : d.Sound := fun e he => hsound e (Codec.mem_parts_trans hd he)
    refine ⟨Codec.run_eq_tally d data, Codec.items_tally_le hpart (hsized d hd) data, ?_⟩
    intro width n rest hwidth hcount hlt
    obtain ⟨f, hf⟩ := Codec.tally_of_lt hpart (hsized d hd) hwidth hcount hlt
    refine ⟨f, ?_⟩
    rw [Codec.decodePrefix, Codec.run_eq_tally, hf]

/-- A count of more than four thousand million routes, and one route behind it. -/
def routesCutOff : Bytes := [255, 255, 255, 255, 2, 1, 1, 0, 0, 0, 0]

theorem counts_bounded_routes : ∃ m, ofDecls (.ok {}) pointDecls = .ok m ∧
    Codec.ofType m.facts routeType = .ok routeCodec ∧
    (∀ d ∈ routeCodec.parts, d.itemsSized = true) ∧ routeCodec.minSize = 4 ∧
    (routeCodec.tally routesCutOff).items ≤ 11 ∧
    ∃ f, routeCodec.decodePrefix routesCutOff = .error f := by
  obtain ⟨m, hm, hc, -⟩ := exists_pointModule
  have hsized : ∀ d ∈ routeCodec.parts, d.itemsSized = true := by decide
  obtain ⟨-, hitems, hfails⟩ := (counts_bounded hm hc hsized).2.2.2 routeCodec
    (Codec.self_mem_parts _) routesCutOff
  refine ⟨m, hm, hc, hsized, rfl, hitems, ?_⟩
  exact hfails .standard 4294967295 [2, 1, 1, 0, 0, 0, 0] rfl rfl (by decide)

end ContractKit.Module
