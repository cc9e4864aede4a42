import ContractKit.Document.Basic
import ContractKit.Settings.Path

/-!
# `Settings/FileTree.lean`: a tree of files

Some files below one place, each holding a document. A name is a directory if the path of some file
goes through it. A path finds a file only if every name on the way is a directory, even one that a step
up leaves again.
-/

set_option autoImplicit false

namespace ContractKit

/-- The files below a place, each by the names on the way to it. -/
abbrev FileTree := List (List String × Document)

namespace FileTree

/-- The tree of some files given by path. -/
def ofList (files : List (String × Document)) : FileTree :=
  files.map fun file => ((Path.ofText file.1).destination.names, file.2)

/-- Whether some file is below the place that the names lead to. -/
def isDirectory (tree : FileTree) (names : List String) : Bool :=
  names.isEmpty || tree.any fun file => names.isPrefixOf file.1 && names.length < file.1.length

/-- The directory that further names lead to from a directory. -/
def enter (tree : FileTree) : (directory : List String) → List String → Option (List String)
  | directory, [] => some directory
  | [], ".." :: _ => none
  | directory, name :: rest =>
    let next :=
      if name = "" ∨ name = "." then directory
      else if name = ".." then directory.dropLast
      else directory ++ [name]
    if tree.isDirectory next then enter tree next rest else none

/-- The most bytes that a path may have. -/
def maxPathBytes : Nat := 4095

/-- The most bytes that a name may have. -/
def maxNameBytes : Nat := 255

/-- Whether a text can be the path of a file at all. -/
def canBePath (text : String) : Bool :=
  text.utf8ByteSize ≤ maxPathBytes
    && (Path.pieces text).all (fun name => name.utf8ByteSize ≤ maxNameBytes)
    && !text.startsWith "/"

/-- The document in the file of a path. -/
def read? (tree : FileTree) (path : String) : Option Document := do
  if !canBePath path then none
  let names := Path.pieces path
  let last := names.getLastD ""
  if last = "" ∨ last = "." ∨ last = ".." then none
  let directory ← tree.enter [] names.dropLast
  tree.lookup (directory ++ [last])

end FileTree

end ContractKit
