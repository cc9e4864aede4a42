import ContractKit.Fault

/-!
# `Settings.lean`: what is generated

Two switches decide what is generated beside codecs and entry points. How they are loaded is said in
`Settings/Load.lean`.
-/

set_option autoImplicit false

namespace ContractKit

/-- What is generated beside codecs and entry points: schemas, and tests. Codecs and entry points are there
whatever the settings are. -/
structure Settings where
  /-- Whether schemas are. -/
  buildSchema : Bool := true
  /-- Whether tests are exported. -/
  wasmTest : Bool := false
  deriving DecidableEq, Repr

/-- The outcome of loading settings. -/
abbrev LoadedSettings := Except Fault Settings

end ContractKit
