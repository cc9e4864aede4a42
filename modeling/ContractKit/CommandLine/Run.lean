import ContractKit.CommandLine.Exports
import ContractKit.CommandLine.Logging
import ContractKit.Document.Printed
import ContractKit.Settings.Load

/-!
# `CommandLine/Run.lean`: the commands of the program

The program has two commands: one lists the exports of a contract and one shows the settings. Without a
command, or asked for help, it lists them. The exit code is 0 when a command did its work, 1 when the
contract does not derive, 2 when the arguments cannot be read or a fault ended the command, and -1 when
there is no such command.
-/

set_option autoImplicit false

namespace ContractKit.CommandLine

/-- What the program can see of the world: its files, its environment, and how many settings files it can
follow and which characters it knows by name. A run is a function of this and its arguments. -/
structure World where
  /-- The name under which the program was called. -/
  program : String
  env : Environment
  read : ReadFile
  /-- How many settings files can extend one another. -/
  fileLimit : Nat
  /-- The names by which literals can call characters. -/
  chars : Text.CharNames
  /-- The declarations of the contract of a name. -/
  contract? : String → Option (List Source.Decl)

/-- The commands in their groups, each with what it does. -/
def commands : List (String × List (String × String)) :=
  [("derive", [("exports", "List the exports generated in a module")]),
   ("dev", [("settings", "Show the settings used by the decorators")])]

def commandNames : List String := commands.flatMap fun group => group.2.map (·.1)

/-- A text in bright red. -/
def highlighted (s : String) : String := "\x1b[31m\x1b[1m" ++ s ++ "\x1b[0m"

/-- The line of a command. -/
def commandLine (width : Nat) (command : String × String) : String :=
  "    " ++ command.1 ++ String.ofList (List.replicate (width - command.1.length) ' ') ++ "   "
    ++ command.2 ++ "\n"

/-- The list of commands. -/
def overview : String :=
  let width := (commandNames.map String.length).foldl max 0
  "\nAvailable subcommands:\n\n" ++
    String.join (commands.map fun group =>
      highlighted ("[" ++ group.1 ++ "]") ++ "\n"
        ++ String.join (group.2.map (commandLine width)) ++ "\n")

/-- The outcome of a command that does not exist. -/
def unknownCommand (program command : String) : Outcome :=
  { code := .ok (-1)
    out := "Unknown command: \"" ++ command ++ "\"\nType \"" ++ program ++ " help\" for usage.\n" }

/-- What the command for exports takes. -/
def exportsGrammar : Grammar :=
  { switches := helpSwitches ++ [⟨"--schema", false⟩], takesArgument := true }

/-- What the command for settings takes. -/
def settingsGrammar : Grammar := { switches := helpSwitches }

/-- The fault of a contract that is not there. -/
def missingContract (name : String) : Fault := .raised .missingModule name

def runExports (w : World) (args : Arguments) : Outcome :=
  let name := args.argument.getD ""
  match w.contract? name with
  | none => { code := .error (missingContract name) }
  | some decls =>
    Exports.run w.chars (Settings.load w.read w.fileLimit w.env) decls (args.has "--schema")

/-- Where settings come from and what they are, as a document. -/
def settingsDocument (env : Environment) (s : Settings) : Document :=
  .object
    [("source", match Settings.source env with
        | some path => .text path
        | none => .null),
     ("settings", s.toDocument)]

def runSettings (w : World) : Outcome :=
  match Settings.load w.read w.fileLimit w.env with
  | .error f => { code := .error f }
  | .ok s => { code := .ok 0, out := (settingsDocument w.env s).indented ++ "\n" }

/-- Run a command with the arguments behind its name. -/
def runCommand (w : World) (command : String) (texts : List String) : Except Ending Outcome := do
  let (_, texts) ← Logging.take texts
  if command == "exports" then
    let args ← exportsGrammar.readAll texts
    pure (runExports w args)
  else
    let _ ← settingsGrammar.readAll texts
    pure (runSettings w)

/-- Run the program with its arguments. -/
def run (w : World) (texts : List String) : Outcome :=
  match texts with
  | [] => { code := .ok 0, out := overview }
  | command :: texts =>
    if command == "help" then { code := .ok 0, out := overview }
    else if !commandNames.contains command then unknownCommand w.program command
    else
      match runCommand w command texts with
      | .ok outcome => outcome
      | .error ending => { code := .ok ending.code }

/-- The exit code of a fault that ended a command. -/
def faultCode : Int := 2

def Outcome.exitCode (o : Outcome) : Int :=
  match o.code with
  | .ok code => code
  | .error _ => faultCode

end ContractKit.CommandLine
