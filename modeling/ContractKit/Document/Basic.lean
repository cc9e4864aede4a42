import ContractKit.Text.Quoted

/-!
# `Document/Basic.lean`: documents

Settings files and contract descriptions are documents: trees of absent values, truth values, numbers,
texts, lists, and objects with named parts. The parts of an object have no order that means anything,
and no two have one name.
-/

set_option autoImplicit false

namespace ContractKit

/-- A document: what settings are written in. Objects keep their parts in order; those that are read have no
two parts of one name. -/
inductive Document
  | null
  | bool (b : Bool)
  | int (n : Int)
  /-- A number with digits after the point: the number of all digits together, and how many of them
  stand after the point. -/
  | decimal (digits : Int) (places : Nat)
  | text (s : String)
  | list (items : List Document)
  | object (parts : List (String × Document))

namespace Document

instance : Inhabited Document := ⟨.null⟩

/-- The part of an object with a name. -/
def part? (name : String) : Document → Option Document
  | object parts => parts.lookup name
  | _ => none

/-- The part of an object with a name, an absent value being no part. -/
def given? (name : String) (d : Document) : Option Document :=
  match d.part? name with
  | some null => none
  | part => part

/-- The parts of an object with one more; of one that is there already the value is replaced. -/
def put (parts : List (String × Document)) (name : String) (d : Document) :
    List (String × Document) :=
  if parts.any fun part => part.1 == name then
    parts.map fun part => if part.1 == name then (name, d) else part
  else parts ++ [(name, d)]

mutual

/-- The number of levels below and including the top one. -/
def depth : Document → Nat
  | list items => depthOfItems items + 1
  | object parts => depthOfParts parts + 1
  | _ => 1

def depthOfItems : List Document → Nat
  | [] => 0
  | d :: ds => max (depth d) (depthOfItems ds)

def depthOfParts : List (String × Document) → Nat
  | [] => 0
  | (_, d) :: ds => max (depth d) (depthOfParts ds)

end

/-- Whether a document counts as true where a truth value is asked for. -/
def isTruthy : Document → Bool
  | null => false
  | bool b => b
  | int n => n != 0
  | decimal digits _ => digits != 0
  | text s => !s.isEmpty
  | list items => !items.isEmpty
  | object parts => !parts.isEmpty

/-- A number with digits after the point, as it is shown. -/
def shownDecimal (digits : Int) (places : Nat) : String :=
  let text := toString digits.natAbs
  let text := String.ofList (List.replicate (places + 1 - text.length) '0') ++ text
  let cs := text.toList
  (if digits < 0 then "-" else "") ++ String.ofList (cs.take (cs.length - places)) ++ "."
    ++ String.ofList (cs.drop (cs.length - places))

mutual

/-- A document as it is shown inside another one. -/
def shown : Document → String
  | null => "None"
  | bool b => if b then "True" else "False"
  | int n => toString n
  | decimal digits places => shownDecimal digits places
  | text s => Text.quoted s
  | list items => "[" ++ ", ".intercalate (shownItems items) ++ "]"
  | object parts => "\x7b" ++ ", ".intercalate (shownParts parts) ++ "\x7d"

def shownItems : List Document → List String
  | [] => []
  | d :: ds => shown d :: shownItems ds

def shownParts : List (String × Document) → List String
  | [] => []
  | (name, d) :: ds => (Text.quoted name ++ ": " ++ shown d) :: shownParts ds

end

/-- A document as a text: a text is itself. -/
def asText : Document → String
  | text s => s
  | d => d.shown

end Document

end ContractKit
