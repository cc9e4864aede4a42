/-!
# `Settings/Path.lean`: paths of files

A path is a list of names below a root or, for a relative one, below the place that it is read from.
Reading a text as a path drops empty names and `.`, but keeps `..`: what it leads to depends on where
it is read. `Path.destination` is that place by name alone, so two texts that lead to one place can be
told to.
-/

set_option autoImplicit false

namespace ContractKit

/-- A path, as what it starts from and its names in order. Names that lead upwards are kept: what is
above a name is told by the file system alone. -/
structure Path where
  /-- What the path starts from: the empty text for a relative one. -/
  root : String
  names : List String
  deriving DecidableEq, Repr

namespace Path

/-- The root that the text of a path starts with. Two slashes, but no more, are another root than
one. -/
def rootOf (text : String) : String :=
  match text.toList with
  | '/' :: '/' :: '/' :: _ => "/"
  | '/' :: '/' :: _ => "//"
  | '/' :: _ => "/"
  | _ => ""

/-- The parts of a text between slashes. -/
def pieces (text : String) : List String := (text.toList.splitOn '/').map String.ofList

def ofText (text : String) : Path :=
  ⟨rootOf text, (pieces text).filter fun name => name != "" && name != "."⟩

def text (p : Path) : String :=
  match p.root ++ "/".intercalate p.names with
  | "" => "."
  | s => s

/-- The path of what holds the file. -/
def parent (p : Path) : Path := { p with names := p.names.dropLast }

/-- A path read from another one, which an absolute path is not. -/
def join (base p : Path) : Path :=
  if p.root = "" then ⟨base.root, base.names ++ p.names⟩ else p

/-- The names on the way to a place, latest first, after one more name. A step up from the root stays
there; one from the start of a relative path leads out of it. -/
def walk (absolute : Bool) (way : List String) (name : String) : List String :=
  if name = ".." then
    match way with
    | [] => if absolute then [] else [".."]
    | ".." :: rest => ".." :: ".." :: rest
    | _ :: rest => rest
  else name :: way

/-- The place that a path leads to, by name. -/
def destination (p : Path) : Path :=
  ⟨p.root, (p.names.foldl (walk (p.root != "")) []).reverse⟩

end Path

end ContractKit
