import ContractKit.Bytes

/-!
# `Contract/Action.lean`: what the host does after a call

A receive function that succeeds returns an action. Actions form a tree: accepting, a transfer and
a message are leaves, and two actions are combined by running the second if the first succeeds, or
if it fails.
-/

set_option autoImplicit false

namespace ContractKit

/-- What the host does after a successful call. Actions are trees: a later action may depend on the
outcome of an earlier one, which the contract does not see. -/
inductive Action
  | accept
  /-- Send an amount to an account. -/
  | transfer (recipient : Bytes) (amount : Int)
  /-- Call a receive function of the contract at an index and subindex. -/
  | send (index subindex : Int) (receiveName : String) (amount : Int) (parameter : Bytes)
  /-- Run the second action if the first succeeds. -/
  | andThen (first second : Action)
  /-- Run the second action if the first fails. -/
  | orElse (first otherwise : Action)
  deriving DecidableEq, Repr

def Action.className : Action → String
  | .accept => "Accept"
  | .transfer .. => "SimpleTransfer"
  | .send .. => "Send"
  | .andThen .. => "AndThen"
  | .orElse .. => "OrElse"

end ContractKit
