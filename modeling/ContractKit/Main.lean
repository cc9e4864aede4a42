import ContractKit.CommandLine.Run
import ContractKit.Document.Parser
import ContractKit.Source.OfDocument

/-!
# `Main.lean`: the program

The outermost layer: it reads the environment, the settings files and the contract descriptions that
the arguments name, runs the command on them (`CommandLine/Run.lean`) and prints what it leaves. The
description of a contract lies in a file of its name, the dots of which lead through directories.
-/

set_option autoImplicit false

namespace ContractKit.CommandLine

def readText? (path : String) : IO (Option String) := do
  try
    let text ← IO.FS.readFile path
    pure (some text)
  catch _ => pure none

/-- The document in a text. A text that is no document stands for itself. -/
def documentOf (text : String) : Document :=
  if text.toList.all Document.isSpace then .null
  else
    match Document.parse text with
    | .ok d => d
    | .error _ => .text text

/-- How many settings files this program follows. -/
def fileLimit : Nat := 1000

/-- The documents in a file and in those that it extends, by path. -/
def settingsFiles : (limit : Nat) → (path : String) → IO (List (String × Document))
  | 0, _ => pure []
  | limit + 1, path => do
    match ← readText? path with
    | none => pure []
    | some text =>
      let d := documentOf text
      match Settings.partsOf (fun _ => some d) path >>= Settings.base? path with
      | .ok (some base) =>
        let rest ← settingsFiles limit base
        pure ((path, d) :: rest)
      | _ => pure [(path, d)]

/-- The path of the file that describes a contract. -/
def contractPath (name : String) : String := "/".intercalate (Module.pathParts name) ++ ".json"

/-- The descriptions of the contracts that are named and have one. -/
def contracts : (names : List String) → IO (List (String × List Source.Decl))
  | [] => pure []
  | name :: names => do
    let rest ← contracts names
    match ← readText? (contractPath name) with
    | none => pure rest
    | some text =>
      match Document.parse text >>= Source.Reading.decls with
      | .ok decls => pure ((name, decls) :: rest)
      | .error _ => pure rest

/-- The variables of the environment that settings are loaded from. -/
def environment : IO Environment := do
  let file ← IO.getEnv Settings.fileVariable
  let buildSchema ← IO.getEnv Settings.buildSchemaVariable
  let wasmTest ← IO.getEnv Settings.wasmTestVariable
  pure fun name =>
    if name == Settings.fileVariable then file
    else if name == Settings.buildSchemaVariable then buildSchema
    else if name == Settings.wasmTestVariable then wasmTest
    else none

/-- The exit code as the system takes it: a byte. -/
def systemCode (code : Int) : UInt32 := UInt32.ofNat (code % 256).toNat

/-- Print what a command leaves. -/
def printOutcome (o : Outcome) : IO UInt32 := do
  IO.print o.out
  IO.eprint o.err
  match o.code with
  | .ok _ => pure ()
  | .error f => IO.eprintln (f.kind.word ++ ": " ++ f.message)
  pure (systemCode o.exitCode)

def runProgram (args : List String) : IO UInt32 := do
  let env ← environment
  let files ← match Settings.source env with
    | some path => settingsFiles fileLimit path
    | none => pure []
  let named ← contracts args
  printOutcome (run
    { program := "concordium-derive"
      env
      read := fun path => files.lookup path
      fileLimit
      chars := .ascii
      contract? := fun name => named.lookup name } args)

end ContractKit.CommandLine

def main (args : List String) : IO UInt32 := ContractKit.CommandLine.runProgram args
