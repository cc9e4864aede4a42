import ContractKit.Fault
import ContractKit.Ty.Basic

/-!
# `Ty/Resolve.lean`: looking up the names in an annotation

An annotation may give a type by name. `resolve` replaces every such name, at any depth, by what it
stands for at that moment; a union is put in normal form again afterwards. `withoutMetadata` drops the
metadata at every depth, as is done for the annotations of functions.
-/

set_option autoImplicit false

namespace ContractKit.Ty

/-- The union of some types, spelled in a given way. -/
def rejoin (spelling : UnionSpelling) (ts : List Ty) : Ty :=
  match spelling, ts with
  | .named, ts => unionOf ts
  | .bar, [] => .union .bar []
  | .bar, t :: ts => ts.foldl barOf t

mutual

/-- The annotation with every name replaced by what it stands for. Names inside what a name stands for
are not looked up again. -/
def resolve (names : String → Except Fault Ty) : Ty → Except Fault Ty
  | .forward name | .forwardRef name => names name
  | .list item => do pure (.list (← resolve names item))
  | .set member => do pure (.set (← resolve names member))
  | .frozenset member => do pure (.frozenset (← resolve names member))
  | .dict key value => do
    let k ← resolve names key
    let v ← resolve names value
    pure (.dict k v)
  | .tuple args => do pure (.tuple (← resolveAll names args))
  | .union spelling members => do pure (rejoin spelling (← resolveAll names members))
  | .annotated base metadata => do pure (.annotated (← resolve names base) metadata)
  | .ok value => do pure (.ok (← resolve names value))
  | .err error => do pure (.err (← resolve names error))
  | .stateRef state => do pure (.stateRef (← resolve names state))
  | t => .ok t

/-- The annotations of a list with every name replaced, up to the first that has none. -/
def resolveAll (names : String → Except Fault Ty) : List Ty → Except Fault (List Ty)
  | [] => .ok []
  | t :: ts => do
    let t ← resolve names t
    let ts ← resolveAll names ts
    pure (t :: ts)

end

/-- The annotation of a field, parameter or result as it is used: names replaced, and the absent
value as its type. -/
def resolveHint (names : String → Except Fault Ty) (t : Ty) : Except Fault Ty :=
  match t with
  | .none => .ok .noneType
  | t => resolve names t

mutual

/-- The annotation without metadata at any depth. -/
def withoutMetadata : Ty → Ty
  | .annotated base _ => withoutMetadata base
  | .list item => .list (withoutMetadata item)
  | .set member => .set (withoutMetadata member)
  | .frozenset member => .frozenset (withoutMetadata member)
  | .dict key value => .dict (withoutMetadata key) (withoutMetadata value)
  | .tuple args => .tuple (withoutMetadataAll args)
  | .union spelling members => rejoin spelling (withoutMetadataAll members)
  | .ok value => .ok (withoutMetadata value)
  | .err error => .err (withoutMetadata error)
  | .stateRef state => .stateRef (withoutMetadata state)
  | t => t

/-- The annotations of a list without metadata. -/
def withoutMetadataAll : List Ty → List Ty
  | [] => []
  | t :: ts => withoutMetadata t :: withoutMetadataAll ts

end

end ContractKit.Ty
