import ContractKit.Value.Basic

/-!
# `Value/Equality.lean`: when two values are equal, and which can be keys

Numbers are equal across their classes: a truth value equals 0 or 1, and a member of an integer
enumeration equals its number. Tuples and positional records are equal when their items are, whatever
their classes; records with named fields only when their classes agree too. Sets and maps are equal
without regard to order.

A value can be a member of a set or a key of a map when it cannot change: lists, sets, maps and
records that are not frozen cannot.
-/

set_option autoImplicit false

namespace ContractKit.Value

/-! ## Equality -/

mutual

/-- Whether two values are equal as contract code sees it. Numbers, truth values and members of integer
enumerations are equal if they are the same number; sets and maps are equal in any order. -/
def beq : Value → Value → Bool
  | .none, .none => true
  | .bool b, v => v.number? == some (if b then 1 else 0)
  | .int n, v => v.number? == some n
  | .member enum name number, v =>
    match number with
    | some n => v.number? == some n
    | Option.none =>
      match v with
      | .member enum' name' Option.none => enum.id == enum'.id && name == name'
      | _ => false
  | .text s, .text t => s == t
  | .bytes a, .bytes b => a == b
  | .list xs, .list ys => beqAll xs ys
  | .tuple xs, v =>
    match v.tupleItems? with
    | some ys => beqAll xs ys
    | Option.none => false
  | .record cls xs, v =>
    if cls.isPositional then
      match v.tupleItems? with
      | some ys => beqAll xs ys
      | Option.none => false
    else
      match v with
      | .record cls' ys => cls.ref.id == cls'.ref.id && beqAll xs ys
      | _ => false
  | .set xs, v | .frozenset xs, v =>
    match v.members? with
    | some ys => xs.length == ys.length && allAmong xs ys
    | Option.none => false
  | .dict es, .dict fs => es.length == fs.length && entriesAmong es fs
  | .ok a, .ok b => beq a b
  | .err a, .err b => beq a b
  | .action a, .action b => a == b
  | .type a, .type b => a == b
  | .handle a, .handle b => a == b
  | _, _ => false

def beqAll : List Value → List Value → Bool
  | [], [] => true
  | x :: xs, y :: ys => beq x y && beqAll xs ys
  | _, _ => false

/-- Whether every value of the first list is equal to one of the second. -/
def allAmong : List Value → List Value → Bool
  | [], _ => true
  | x :: xs, ys => ys.any (beq x) && allAmong xs ys

/-- Whether every entry of the first list is equal to one of the second. -/
def entriesAmong : List (Value × Value) → List (Value × Value) → Bool
  | [], _ => true
  | (k, v) :: es, fs => fs.any (fun f => beq k f.1 && beq v f.2) && entriesAmong es fs

end

instance : BEq Value := ⟨beq⟩

/-! ## Keys -/

mutual

/-- Whether a value can be a member of a set or a key of a map. -/
def isHashable : Value → Bool
  | .list _ | .set _ | .dict _ => false
  | .tuple items => allHashable items
  | .record cls items => cls.isHashable && allHashable items
  | .ok v | .err v => isHashable v
  | _ => true

def allHashable : List Value → Bool
  | [] => true
  | v :: vs => isHashable v && allHashable vs

end

/-- The members with one more, unless an equal one is there. -/
def insertMember (members : List Value) (v : Value) : List Value :=
  if members.any (beq v) then members else members ++ [v]

/-- The members of a list of values, each equal value kept at its first place. -/
def membersOf (vs : List Value) : List Value := vs.foldl insertMember []

/-- The entries with one more. An equal key keeps its place and takes the new value. -/
def insertEntry (entries : List (Value × Value)) (k v : Value) : List (Value × Value) :=
  if entries.any (fun e => beq e.1 k) then
    entries.map fun e => if beq e.1 k then (e.1, v) else e
  else entries ++ [(k, v)]

/-- The entries of a list of keys and values, the last value of equal keys winning. -/
def entriesOf (es : List (Value × Value)) : List (Value × Value) :=
  es.foldl (fun acc e => insertEntry acc e.1 e.2) []

/-! ## Truth -/

/-- Whether a value counts as true where a truth value is written. -/
def isTruthy : Value → Bool
  | .none => false
  | .bool b => b
  | .int n => n != 0
  | .text s => !s.isEmpty
  | .bytes data => !data.isEmpty
  | .list items | .tuple items => !items.isEmpty
  | .set members | .frozenset members => !members.isEmpty
  | .dict entries => !entries.isEmpty
  | .record cls items => !(cls.isPositional && items.isEmpty)
  | .member _ _ (some n) => n != 0
  | _ => true

end ContractKit.Value
