import ContractKit.Proofs.Codec.Reencode
import ContractKit.Proofs.Module.Declared

/-!
# `Proofs/Module/Format.lean`: the wire format of declared types

The main results about codecs and schemas, for every type that has one in a module that was declared,
however deep it nests and whatever its fields ask for: what is written is read back whatever follows it
(`decodePrefix_encode`), what is read can be written again, in canonical form and with no more bytes
(`encode_decode`), and a reader that knows the schema alone finds the same ends as the codec
(`walk_schema`).
-/

set_option autoImplicit false

namespace ContractKit

open Value (Same)

namespace Codec

theorem decodePrefix_eq_ok {c : Codec} {data rest : Bytes} {v : Value} :
    c.decodePrefix data = .ok (v, rest) ↔ ∃ front, data = front ++ rest ∧ c.read.Takes front v := by
  rw [← Read.run_eq_ok_iff, decodePrefix]
  rcases c.read.run data with ⟨outcome | w, left⟩
  · simp
  · simp

theorem decode_eq_ok {c : Codec} {data : Bytes} {v : Value} :
    c.decode data = .ok v ↔ c.read.Takes data v :=
  Read.runAll_eq_ok_iff

end Codec

namespace Module

variable {settings : LoadedSettings} {decls : List Source.Decl} {chars : Text.CharNames}
  {m : Module} {t : Ty} {c : Codec}

theorem sound_of_ofType (hm : ofDecls settings decls chars = .ok m) (hc : Codec.ofType m.facts t = .ok c) :
    c.Sound :=
  Codec.sound_of_ofType (Described.ofDecls hm).sound hc

/-! ## A type to try the results on

Maps from points to lists of names, some of them missing, where points are instances of a declared
class. -/

section Routes

/-- The declaration of points: what stands above the class derives a codec and a schema. -/
def pointDecls : List Source.Decl :=
  [.dataclass "Point" [⟨"x", .type (.sized .u16), true, none⟩, ⟨"seen", .type .bool, true, none⟩]
    true true none none [.codec ⟨true, true⟩, .schema]]

/-- The class of points. -/
def point : RecordClass :=
  ⟨⟨.declared 0, "Point", home⟩, ["x", "seen"], .named true (some 2), []⟩

/-- The type of the maps. -/
def routeType : Ty := .dict (.cls point.ref) (.list (.optional .text))

/-- The codec of the maps. -/
def routeCodec : Codec :=
  .map (.struct ⟨point, none⟩ ⟨true, true⟩ [.int ⟨2, false⟩, .bool])
    (.sequence false (.optional (.text .standard .unchecked)) .standard .unchecked)
    .standard .strictlyIncreasing

/-- The schema of the maps. -/
def routeSchema : Schema :=
  .map .standard (.struct (.named [("x", .primitive .u16), ("seen", .primitive .bool)]))
    (.list .standard (.optional (.string .standard)))

/-- A map with one point in it. -/
def routes : Value := .dict [(.record point [.int 258, .bool true], .list [.text "a", .none])]

/-- What is written for that map. -/
def routeBytes : Bytes := [1, 0, 0, 0, 2, 1, 1, 2, 0, 0, 0, 1, 1, 0, 0, 0, 97, 0]

theorem exists_pointModule : ∃ m, ofDecls (.ok {}) pointDecls = .ok m ∧
    Codec.ofType m.facts routeType = .ok routeCodec ∧
    Schema.ofType m.facts routeType = .ok routeSchema :=
  ⟨_, rfl, rfl, rfl⟩

theorem regular_routeCodec : routeCodec.Regular := ⟨rfl, rfl, by decide, by decide⟩

theorem exact_routes : routeCodec.Exact routes := by
  refine ⟨_, rfl, fun e he => ?_, List.pairwise_singleton _ _⟩
  obtain rfl := List.mem_singleton.mp he
  refine ⟨⟨_, rfl, _, _, rfl, ⟨_, rfl⟩, _, _, rfl, ⟨_, rfl⟩, rfl⟩, _, rfl, fun x hx => ?_⟩
  rcases List.mem_pair.mp hx with rfl | rfl
  · exact Or.inr ⟨_, rfl⟩
  · exact Or.inl rfl

end Routes

/-! ## Codecs -/

/-- **What is written is read back**, whatever follows it, and nothing of what follows is read. The value
that is read is the same but for the order in which members and keys were put in, and equal to the one
that was written. Classes that reject values are excluded: they may refuse to be read. -/
theorem decodePrefix_encode (hm : ofDecls settings decls chars = .ok m)
    (hc : Codec.ofType m.facts t = .ok c) (hregular : c.Regular) {v : Value} (hv : c.Exact v)
    {data : Bytes} (hdata : c.encode v = .ok data) (rest : Bytes) :
    ∃ w, c.decodePrefix (data ++ rest) = .ok (w, rest) ∧ Same v w ∧ v.beq w = true := by
  obtain ⟨w, hw, hsame⟩ := Codec.roundTrips (sound_of_ofType hm hc) hregular hv hdata
  exact ⟨w, Codec.decodePrefix_eq_ok.mpr ⟨data, rfl, Codec.takes_of_strict hw⟩, hsame,
    Codec.beq_of_same hv hsame⟩

theorem decodePrefix_encode_routes : ∃ m, ofDecls (.ok {}) pointDecls = .ok m ∧
    Codec.ofType m.facts routeType = .ok routeCodec ∧ routeCodec.Regular ∧
    routeCodec.Exact routes ∧ routeCodec.encode routes = .ok routeBytes ∧
    ∃ w, routeCodec.decodePrefix (routeBytes ++ [7]) = .ok (w, [7]) ∧ Same routes w ∧
      routes.beq w = true := by
  obtain ⟨m, hm, hc, -⟩ := exists_pointModule
  exact ⟨m, hm, hc, regular_routeCodec, exact_routes, rfl,
    decodePrefix_encode hm hc regular_routeCodec exact_routes rfl [7]⟩

/-- **What is read can be written again** with no more bytes, and reading those gives the same value,
also where equal keys are refused. They are the bytes that were read if the format is canonical. -/
theorem encode_decode (hm : ofDecls settings decls chars = .ok m) (hc : Codec.ofType m.facts t = .ok c)
    (hregular : c.Regular) {data : Bytes} {v : Value} (hv : c.decode data = .ok v) :
    ∃ out, c.encode v = .ok out ∧ out.length ≤ data.length ∧
      (∃ w, c.decode out = .ok w ∧ c.strict.decode out = .ok w ∧ Same v w ∧ v.beq w = true) ∧
      (c.isCanonical = true → out = data) := by
  have hsound := sound_of_ofType hm hc
  obtain ⟨hexact, out, hout, hlen, hcanonical⟩ :=
    Codec.reencodes hsound hregular (Codec.decode_eq_ok.mp hv)
  obtain ⟨w, hw, hsame⟩ := Codec.roundTrips hsound hregular hexact hout
  exact ⟨out, hout, hlen,
    ⟨w, Codec.decode_eq_ok.mpr (Codec.takes_of_strict hw), Codec.decode_eq_ok.mpr hw, hsame,
      Codec.beq_of_same hexact hsame⟩,
    hcanonical⟩

theorem encode_decode_routes : ∃ m, ofDecls (.ok {}) pointDecls = .ok m ∧
    Codec.ofType m.facts routeType = .ok routeCodec ∧ routeCodec.Regular ∧
    routeCodec.decode routeBytes = .ok routes ∧
    ∃ out, routeCodec.encode routes = .ok out ∧ out.length ≤ routeBytes.length ∧
      (∃ w, routeCodec.decode out = .ok w ∧ routeCodec.strict.decode out = .ok w ∧ Same routes w ∧
        routes.beq w = true) ∧
      (routeCodec.isCanonical = true → out = routeBytes) := by
  obtain ⟨m, hm, hc, -⟩ := exists_pointModule
  exact ⟨m, hm, hc, regular_routeCodec, rfl, encode_decode hm hc regular_routeCodec rfl⟩

/-! ## Schemas -/

/-- **A reader that knows the schema alone finds where a value ends**: right after what the codec
writes, whatever follows, and where the codec stops when it reads. -/
theorem walk_schema (hm : ofDecls settings decls chars = .ok m) (hc : Codec.ofType m.facts t = .ok c)
    {s : Schema} (hs : Schema.ofType m.facts t = .ok s) :
    (∀ v data rest, c.encode v = .ok data → s.walk.run (data ++ rest) = (.ok (), rest)) ∧
      ∀ data v rest, c.decodePrefix data = .ok (v, rest) → s.walk.run data = (.ok (), rest) := by
  have hsound := sound_of_ofType hm hc
  rw [← (Described.ofDecls hm).walk_eq_of_type hc hs]
  constructor
  · intro v data rest hdata
    exact Read.run_eq_ok_iff.mpr ⟨data, rfl, Codec.takes_walk_of_emit hsound hdata⟩
  · intro data v rest hv
    obtain ⟨front, rfl, hread⟩ := Codec.decodePrefix_eq_ok.mp hv
    exact Read.run_eq_ok_iff.mpr ⟨front, rfl, Codec.takes_walk_of_read hsound hread⟩

theorem walk_schema_routes : ∃ m, ofDecls (.ok {}) pointDecls = .ok m ∧
    Codec.ofType m.facts routeType = .ok routeCodec ∧
    Schema.ofType m.facts routeType = .ok routeSchema ∧
    (∀ v data rest, routeCodec.encode v = .ok data →
      routeSchema.walk.run (data ++ rest) = (.ok (), rest)) ∧
    ∀ data v rest, routeCodec.decodePrefix data = .ok (v, rest) →
      routeSchema.walk.run data = (.ok (), rest) := by
  obtain ⟨m, hm, hc, hs⟩ := exists_pointModule
  exact ⟨m, hm, hc, hs, walk_schema hm hc hs⟩

end Module

end ContractKit
