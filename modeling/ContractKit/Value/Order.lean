import ContractKit.Value.Equality

/-!
# `Value/Order.lean`: which of two values is less

Only some pairs of values have an order: numbers among each other, texts by code points, byte
strings bytewise, tuples and lists lexicographically, records of one class that is declared to be
ordered, and sets by strict inclusion. `lt?` answers `none` for every other pair. A lexicographic
comparison looks for the first place where the items are not equal and asks for the order of those
two items alone, so items before or after it need no order.

`sorted?` arranges values so that each is not greater than the next, keeping equal ones in place.
It finds the ascending or strictly descending run at the front and inserts each further value by
halving. Where the order is total the arrangement does not depend on how it is found. Where it is not,
among sets, it does: the comparisons made here are those of the format for fewer than 64 values, and
longer lists of sets may stand otherwise there.
-/

set_option autoImplicit false

namespace ContractKit.Value

mutual

/-- Whether the first value is less than the second, if the two have an order. Sets are ordered by
inclusion, which leaves pairs of them unordered without being a fault. -/
def lt? : Value → Value → Option Bool
  | .bool b, v => v.number?.map fun m => decide ((if b then 1 else 0 : Int) < m)
  | .int n, v => v.number?.map fun m => decide (n < m)
  | .member _ _ number, v => do
    let n ← number
    let m ← v.number?
    pure (decide (n < m))
  | .text s, .text t => some (decide (s < t))
  | .bytes a, .bytes b => some (decide (a < b))
  | .list xs, .list ys => lexLt? xs ys
  | .tuple xs, v =>
    match v.tupleItems? with
    | some ys => lexLt? xs ys
    | Option.none => Option.none
  | .record cls xs, v =>
    match cls.form with
    | .positional =>
      match v.tupleItems? with
      | some ys => lexLt? xs ys
      | Option.none => Option.none
    | .named _ ordered =>
      match ordered, v with
      | some count, .record cls' ys =>
        if cls.ref.id == cls'.ref.id then lexLt? xs (ys.take count) else Option.none
      | _, _ => Option.none
  | .set xs, v | .frozenset xs, v =>
    match v.members? with
    | some ys => some (decide (xs.length < ys.length) && allAmong xs ys)
    | Option.none => Option.none
  | _, _ => Option.none

/-- Whether the first list is less than the second, decided by the first items that are not equal
and else by the lengths. -/
def lexLt? : List Value → List Value → Option Bool
  | [], ys => some (!ys.isEmpty)
  | _ :: _, [] => some false
  | x :: xs, y :: ys => if beq x y then lexLt? xs ys else lt? x y

end

/-! ## Sorting -/

/-- The number of values at the front that ascend, each not less than the one before, counted from
`previous`. -/
def ascendingRun? {α : Type} (less : α → α → Option Bool) (previous : α) : List α → Option Nat
  | [] => some 0
  | x :: xs => do
    if ← less x previous then pure 0
    else pure ((← ascendingRun? less x xs) + 1)

/-- The number of values at the front that strictly descend, counted from `previous`. -/
def descendingRun? {α : Type} (less : α → α → Option Bool) (previous : α) : List α → Option Nat
  | [] => some 0
  | x :: xs => do
    if ← less x previous then pure ((← descendingRun? less x xs) + 1)
    else pure 0

/-- The place of a value among sorted ones, after all that it is not less than, found by halving
the range from `low` to `high`. -/
def placeOf? {α : Type} (less : α → α → Option Bool) (sorted : Array α) (x : α) :
    (fuel low high : Nat) → Option Nat
  | 0, low, _ => some low
  | fuel + 1, low, high =>
    if low < high then do
      let middle := low + (high - low) / 2
      match sorted[middle]? with
      | Option.none => some low
      | some pivot =>
        if ← less x pivot then placeOf? less sorted x fuel low middle
        else placeOf? less sorted x fuel (middle + 1) high
    else some low

/-- The sorted values with further ones inserted, each at its place. -/
def insertAll? {α : Type} (less : α → α → Option Bool) : List α → Array α → Option (Array α)
  | [], sorted => some sorted
  | x :: xs, sorted => do
    let place ← placeOf? less sorted x (sorted.size + 1) 0 sorted.size
    insertAll? less xs (sorted.insertIdxIfInBounds place x)

/-- The values in ascending order, if every comparison that this takes has an answer. Of values that
only some pairs have an order, such as sets by inclusion, this is the arrangement of the format as long
as there are fewer than 64 of them. -/
def sortedBy? {α : Type} (less : α → α → Option Bool) : List α → Option (List α)
  | [] => some []
  | [x] => some [x]
  | x :: y :: rest => do
    let run ←
      if ← less y x then do
        let n ← descendingRun? less y rest
        pure ((x :: y :: rest.take n).reverse, rest.drop n)
      else do
        let n ← ascendingRun? less y rest
        pure (x :: y :: rest.take n, rest.drop n)
    (← insertAll? less run.2 run.1.toArray).toList

/-- The values in ascending order, if they have one. -/
def sorted? (vs : List Value) : Option (List Value) := sortedBy? lt? vs

/-- The entries in ascending order of their keys, if the keys have one. -/
def sortedEntries? (es : List (Value × Value)) : Option (List (Value × Value)) :=
  sortedBy? (fun a b => lt? a.1 b.1) es

end ContractKit.Value
