import ContractKit.Fault
import ContractKit.Wire.Stream

/-!
# `Source/Interaction.lean`: contract code of any kind

The statements of `Source/Syntax.lean` are those that a description can write down. Contract code can do
more with what it was handed: it can decide by what it read, and make any other value of its state. An
`Interaction` is such code as the tree of what it does: at every node it does one thing to its host, and
what it does next depends on the answer. The library promises the same of all of it, so a statement can
be an interaction too.
-/

set_option autoImplicit false

namespace ContractKit.Source

/-- What contract code sees without doing anything to its host: its variables, the bytes of the
parameter, and the value of the state if it was handed one. -/
structure View where
  locals : List (String × Value)
  parameter : Bytes
  state : Option Value

/-- Contract code, as what it does to its host and how it goes on with the answers. What it computes in
between is a function, of which nothing is asked. -/
inductive Interaction
  /-- Return a value, or go on with the next statement. -/
  | done (result : Option Value)
  | fail (kind : FaultKind) (text : String)
  | look (next : View → Interaction)
  /-- Log an event. -/
  | log (event : Bytes) (next : Value → Interaction)
  /-- Operate on the bytes of the state. -/
  | operate (step : StreamStep Value) (next : Except Fault StreamResult → Interaction)
  /-- Make another value of the state, as assignments, insertions and removals do. -/
  | change (v : Value) (next : Interaction)

end ContractKit.Source
