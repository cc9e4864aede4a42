/-!
# `Diagnostic.lean`: located messages

Deriving code for a declaration either succeeds or fails with one report that names every problem
found, each at a span: the item, and where they are known the field, the attribute with its
occurrence, and the column in the attribute's text. A report is never empty.
-/

set_option autoImplicit false

namespace ContractKit

/-- Where a problem is: in which item, and as far as it is known in which field of it, at which attribute
and at which column of the text that the attribute was written in. Whoever knows more narrows the place
of what it hands on. -/
structure Span where
  /-- The qualified name of the declared class or function. -/
  item : String
  field : Option String := none
  attr : Option String := none
  /-- The occurrence of the attribute among those of its name, from zero. -/
  index : Option Nat := none
  /-- The position in the text of an annotation, in characters. -/
  column : Option Nat := none
  deriving DecidableEq, Repr

namespace Span

/-- The same place, narrowed to a field. -/
def atField (s : Span) (field : String) : Span := { s with field := some field }

/-- The same place, narrowed to an attribute of unknown occurrence. -/
def atAttribute (s : Span) (attr : String) : Span :=
  { s with attr := some attr, index := none }

/-- The same place, at a column of the annotation's text. -/
def atColumn (s : Span) (column : Nat) : Span := { s with column := some column }

/-- The attribute and column of a span, as they stand between its brackets. -/
def details (s : Span) : List String :=
  (match s.attr, s.index with
    | none, _ => []
    | some name, none => [name]
    | some name, some i => [s!"{name} #{i}"])
  ++ (match s.column with
    | none => []
    | some c => [s!"column {c}"])

/-- A span as it is printed: `item.field [attribute #index, column n]`, parts left out as unknown. -/
def text (s : Span) : String :=
  let place := match s.field with
    | none => s.item
    | some f => s.item ++ "." ++ f
  match s.details with
  | [] => place
  | parts => place ++ " [" ++ ", ".intercalate parts ++ "]"

end Span

/-- A message and the place it is about. One report holds all those of an item, in the order in which
they were found. -/
structure Diagnostic where
  message : String
  span : Span
  deriving DecidableEq, Repr

/-- One line per diagnostic: the place, then the message. -/
def Diagnostic.text (d : Diagnostic) : String := d.span.text ++ ": " ++ d.message

/-- The problems found in a declaration, in the order in which they were found. There is at least one:
where nothing is wrong there is no report, and a declaration that has one derives nothing. -/
structure Report where
  first : Diagnostic
  rest : List Diagnostic
  deriving DecidableEq, Repr

namespace Report

def single (message : String) (span : Span) : Report := ⟨⟨message, span⟩, []⟩

def toList (r : Report) : List Diagnostic := r.first :: r.rest

/-- The report of a list of problems, if there is any. -/
def ofList? : List Diagnostic → Option Report
  | [] => none
  | d :: ds => some ⟨d, ds⟩

def text (r : Report) : String := "\n".intercalate (r.toList.map Diagnostic.text)

/-- The problems of one report and then those of another. -/
def append (r s : Report) : Report := ⟨r.first, r.rest ++ s.toList⟩

/-- Two results, or everything that is wrong with either. -/
def both {α β : Type} : Except Report α → Except Report β → Except Report (α × β)
  | .ok a, .ok b => .ok (a, b)
  | .error r, .ok _ => .error r
  | .ok _, .error s => .error s
  | .error r, .error s => .error (r.append s)

@[simp] theorem ofList?_toList (r : Report) : ofList? r.toList = some r := rfl

end Report

end ContractKit
