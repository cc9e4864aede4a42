import ContractKit.CommandLine.Arguments

/-!
# `CommandLine/Logging.lean`: where the program logs to

Every command takes the options about logging. They are read first and taken out of the arguments, so
that commands do not see them.
-/

set_option autoImplicit false

namespace ContractKit.CommandLine

/-- The form of the log. -/
inductive LogForm
  | nowhere
  | pretty
  | json
  deriving DecidableEq, Repr

def LogForm.word : LogForm → String
  | nowhere => "NULL"
  | pretty => "PRETTY"
  | json => "JSON"

/-- How the program logs. -/
structure Logging where
  form : LogForm
  debug : Bool
  deriving DecidableEq, Repr

namespace Logging

/-- The options about the form, one of which may be given. -/
def formGrammar : Grammar :=
  { switches := [⟨"--json-logs", false⟩, ⟨"--disable-logs", false⟩], exclusive := true }

/-- The option about the level. -/
def levelGrammar : Grammar := { switches := [⟨"--debug", false⟩] }

/-- The form that was asked for. -/
def formOf (read : Arguments) : LogForm :=
  if read.has "--json-logs" then .json
  else if read.has "--disable-logs" then .nowhere
  else .pretty

/-- Take the options about logging out of the arguments. -/
def take (texts : List String) : Except Ending (Logging × List String) := do
  let form ← formGrammar.readKnown texts
  let level ← levelGrammar.readKnown form.rest
  pure (⟨formOf form, level.has "--debug"⟩, level.rest)

end Logging

end ContractKit.CommandLine
