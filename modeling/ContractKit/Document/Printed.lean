import ContractKit.Document.Basic

/-!
# `Document/Printed.lean`: printing documents

A document is printed as JSON in one of two layouts: on one line with the parts of objects in the order
of their names, or over several lines with the parts in their own order and everything but ASCII
escaped. `Document/Parser.lean` reads both.
-/

set_option autoImplicit false

namespace ContractKit.Document

/-! ## Texts -/

/-- An escape of four hexadecimal digits. -/
def unitEscape (n : Nat) : String := "\\u" ++ String.ofList (Text.hexDigits 4 n)

/-- A character as an escape: one unit, or two for a character beyond the first 65536. -/
def charEscape (c : Char) : String :=
  let n := c.toNat
  if n < 0x10000 then unitEscape n
  else unitEscape (0xD800 + (n - 0x10000) / 0x400) ++ unitEscape (0xDC00 + (n - 0x10000) % 0x400)

/-- A character inside a printed text. -/
def printedChar (asciiOnly : Bool) (c : Char) : String :=
  if c = '"' then "\\\""
  else if c = '\\' then "\\\\"
  else if c = '\n' then "\\n"
  else if c = '\r' then "\\r"
  else if c = '\t' then "\\t"
  else if c = '\x08' then "\\b"
  else if c = '\x0c' then "\\f"
  else if c.toNat < 0x20 then charEscape c
  else if asciiOnly && 0x7f ≤ c.toNat then charEscape c
  else c.toString

/-- A text in quotes. -/
def printedText (asciiOnly : Bool) (s : String) : String :=
  "\"" ++ String.join (s.toList.map (printedChar asciiOnly)) ++ "\""

/-! ## Numbers -/

/-- A number with digits after the point. -/
def printedDecimal (digits : Int) (places : Nat) : String :=
  shownDecimal digits (max places 1)

/-! ## On one line -/

/-- The printed parts of an object with one more, in the order of their names. -/
def insertByName (name text : String) : List (String × String) → List (String × String)
  | [] => [(name, text)]
  | (n, t) :: rest =>
    if name ≤ n then (name, text) :: (n, t) :: rest else (n, t) :: insertByName name text rest

/-- Printed parts in the order of their names, between braces. -/
def braced (parts : List (String × String)) : String :=
  let sorted := parts.foldr (fun part acc => insertByName part.1 part.2 acc) []
  "\x7b" ++ ",".intercalate (sorted.map fun part => printedText false part.1 ++ ":" ++ part.2) ++ "\x7d"

mutual

/-- A document on one line. -/
def compact : Document → String
  | null => "null"
  | bool b => if b then "true" else "false"
  | int n => toString n
  | decimal digits places => printedDecimal digits places
  | text s => printedText false s
  | list items => "[" ++ ",".intercalate (compactItems items) ++ "]"
  | object parts => braced (compactParts parts)

def compactItems : List Document → List String
  | [] => []
  | d :: ds => compact d :: compactItems ds

def compactParts : List (String × Document) → List (String × String)
  | [] => []
  | (name, d) :: ds => (name, compact d) :: compactParts ds

end

/-! ## Over several lines -/

/-- The start of a line at a depth. -/
def indent (depth : Nat) : String := "\n" ++ String.ofList (List.replicate (2 * depth) ' ')

/-- Printed lines between brackets, one deeper than they. -/
def block (depth : Nat) (opening closing : String) (lines : List String) : String :=
  if lines.isEmpty then opening ++ closing
  else
    opening ++ ",".intercalate (lines.map fun line => indent (depth + 1) ++ line) ++ indent depth
      ++ closing

mutual

/-- A document over several lines, the first of them at a depth. -/
def indentedAt (depth : Nat) : Document → String
  | null => "null"
  | bool b => if b then "true" else "false"
  | int n => toString n
  | decimal digits places => printedDecimal digits places
  | text s => printedText true s
  | list items => block depth "[" "]" (indentedItems (depth + 1) items)
  | object parts => block depth "\x7b" "\x7d" (indentedParts (depth + 1) parts)

def indentedItems (depth : Nat) : List Document → List String
  | [] => []
  | d :: ds => indentedAt depth d :: indentedItems depth ds

def indentedParts (depth : Nat) : List (String × Document) → List String
  | [] => []
  | (name, d) :: ds =>
    (printedText true name ++ ": " ++ indentedAt depth d) :: indentedParts depth ds

end

def indented (d : Document) : String := indentedAt 0 d

end ContractKit.Document
