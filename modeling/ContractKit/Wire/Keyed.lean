import ContractKit.Value.Order
import ContractKit.Wire.Emit
import ContractKit.Wire.Read

/-!
# `Wire/Keyed.lean`: reading the members of sets and the entries of maps

Items that have a key are read one after the other. After each one its key is compared with that of
the item before, if the keys have to ascend, and then it has to be one that can be a key at all. A
fault found at an item is reported before the next item is read.
-/

set_option autoImplicit false

namespace ContractKit

/-- How the keys of a set or a map are checked when it is read. Whether they ascend is a matter of the
policy; that they can be keys at all is always asked where they are to be put into a set or a map. -/
structure KeyCheck where
  /-- Each key has to be greater than the one before. -/
  ascending : Bool
  /-- Each key has to be hashable. -/
  hashed : Bool

namespace KeyCheck

/-- Whether a key may follow another one. -/
def follows (previous key : Value) : Except Fault Unit :=
  match Value.lt? previous key with
  | none => .error .unordered
  | some true => .ok ()
  | some false => .error (.wire .notIncreasing)

/-- Whether a key is accepted after those before it. -/
def accepts (check : KeyCheck) (previous : Option Value) (key : Value) : Except Fault Unit := do
  match check.ascending, previous with
  | true, some p => follows p key
  | _, _ => pure ()
  if check.hashed && !key.isHashable then throw .unhashable

end KeyCheck

namespace Read

variable {α : Type}

/-- The results of running a program `n` times with the keys checked, before those in `acc`, latest
first. -/
def keyedOnto (check : KeyCheck) (key : α → Value) (item : Read α) :
    (n : Nat) → (acc : List α) → Read (List α)
  | 0, acc => done acc
  | n + 1, acc => item.bind fun a =>
    match check.accepts (acc.head?.map key) (key a) with
    | .error f => fail f
    | .ok () => keyedOnto check key item n (a :: acc)

/-- The next items with a count before them and their keys checked. -/
def keyed (width : PrefixWidth) (check : KeyCheck) (key : α → Value) (item : Read α) :
    Read (List α) :=
  (count width).bind fun n => (keyedOnto check key item n []).bind fun rev => done rev.reverse

/-- The next key and value. -/
def entry (key value : Read Value) : Read (Value × Value) :=
  key.bind fun k => value.bind fun v => done (k, v)

end Read

end ContractKit
