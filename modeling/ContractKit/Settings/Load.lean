import ContractKit.Document.Merge
import ContractKit.Settings
import ContractKit.Settings.Path
import ContractKit.Text.Blank

/-!
# `Settings/Load.lean`: loading settings

Settings come from three places, the later ones over the earlier: their defaults, a file, and the
environment. A file may extend another one, and so on; each file is laid over the one that it extends,
part by part. What the files say is checked as a whole before the environment is looked at.
-/

set_option autoImplicit false

namespace ContractKit

/-- The document in the file of a path, if there is such a file. An empty file holds `null`. -/
abbrev ReadFile := String → Option Document

/-- The value of a variable of the environment, if it is set. -/
abbrev Environment := String → Option String

namespace Settings

def fail {α : Type} (issue : SettingsIssue) : Except Fault α := .error (.settings issue)

/-! ## Files -/

/-- The part of a file that names the one it extends. -/
def extendsKey : String := "extends"

/-- The parts of the document in a file, which has to be an object. -/
def partsOf (read : ReadFile) (path : String) : Except Fault (List (String × Document)) :=
  match read path with
  | none => fail (.notAFile path)
  | some .null => .ok []
  | some (.object parts) => .ok parts
  | some _ => fail (.notAnObject path)

/-- The path of the file that another one extends, if it names one. It is read from where that other
file is. -/
def base? (path : String) (parts : List (String × Document)) : Except Fault (Option String) :=
  match parts.lookup extendsKey with
  | none => .ok none
  | some named =>
    if !named.isTruthy then .ok none
    else
      let here := Path.ofText path
      let base := here.parent.join (Path.ofText named.asText)
      if base.text.contains (Char.ofNat 0) then fail .badPath
      else if base.destination = here.destination then fail (.extendsItself path)
      else .ok (some base.text)

/-- The parts that a file has of its own. -/
def ownParts (parts : List (String × Document)) : List (String × Document) :=
  parts.filter fun part => part.1 != extendsKey

/-- The parts of a file laid over those of the files that it extends. A file is loaded while the one
that extends it is being loaded, so there is a limit to how many files can be followed, the first one
included. It is set by where the library runs, and not by the library. -/
def extended (read : ReadFile) : (limit : Nat) → (path : String) →
    Except Fault (List (String × Document))
  | 0, _ => fail .tooManyFiles
  | limit + 1, path => do
    let parts ← partsOf read path
    match ← base? path parts with
    | none => pure (ownParts parts)
    | some base =>
      let below ← extended read limit base
      pure (Document.partsOver below (ownParts parts))

/-! ## Truth values -/

/-- A text in lower case, as far as ASCII goes. The words for truth values have no letter that
another one turns into. -/
def lowered (s : String) : String := String.ofList (s.toList.map Char.toLower)

def trueWords : List String := ["1", "on", "t", "true", "y", "yes"]

def falseWords : List String := ["0", "off", "f", "false", "n", "no"]

def truth? : Document → Option Bool
  | .bool b => some b
  | .int 0 => some false
  | .int 1 => some true
  | .text s =>
    if trueWords.contains (lowered s) then some true
    else if falseWords.contains (lowered s) then some false
    else none
  | _ => none

def trueVariables : List String := ["1", "true", "yes", "on"]

def falseVariables : List String := ["0", "false", "no", "off", ""]

/-- The truth value that a variable of the environment holds. -/
def truthOfVariable (name value : String) : Except Fault Bool :=
  let word := lowered (Text.trimBlanks value)
  if trueVariables.contains word then .ok true
  else if falseVariables.contains word then .ok false
  else fail (.notATruthValue name (Text.quoted value))

/-! ## Loading -/

/-- The settings with one changed by a part of a file. -/
def withPart (s : Settings) (part : String × Document) : Except Fault Settings :=
  match part.1, truth? part.2 with
  | "BUILD_SCHEMA", some b => .ok { s with buildSchema := b }
  | "WASM_TEST", some b => .ok { s with wasmTest := b }
  | _, _ => fail .invalid

/-- The settings that the parts of a file give. -/
def ofParts (parts : List (String × Document)) : Except Fault Settings :=
  parts.foldlM withPart {}

def toDocument (s : Settings) : Document :=
  .object [("BUILD_SCHEMA", .bool s.buildSchema), ("WASM_TEST", .bool s.wasmTest)]

/-- The variable that names the file. -/
def fileVariable : String := "CONCORDIUM_DERIVE_CONFIG_YAML"

def buildSchemaVariable : String := "CONCORDIUM_DERIVE_BUILD_SCHEMA"

def wasmTestVariable : String := "CONCORDIUM_DERIVE_WASM_TEST"

/-- The truth value of a variable, or another one if it is not set. -/
def variableOr (env : Environment) (name : String) (otherwise : Bool) : Except Fault Bool :=
  match env name with
  | none => .ok otherwise
  | some value => truthOfVariable name value

/-- The settings with those that the environment sets. -/
def withEnvironment (env : Environment) (s : Settings) : Except Fault Settings := do
  let buildSchema ← variableOr env buildSchemaVariable s.buildSchema
  let wasmTest ← variableOr env wasmTestVariable s.wasmTest
  pure { buildSchema, wasmTest }

/-- The settings from a file, or the defaults if no file is named. -/
def fromFile (read : ReadFile) (limit : Nat) : Option String → Except Fault Settings
  | none | some "" => .ok {}
  | some path => do ofParts (← extended read limit path)

/-- The path of the file that the environment names. -/
def source (env : Environment) : Option String := env fileVariable

/-- The settings that files and the environment give, where so many files can be followed. -/
def load (read : ReadFile) (limit : Nat) (env : Environment) : LoadedSettings := do
  let s ← fromFile read limit (source env)
  s.withEnvironment env

end Settings

end ContractKit
