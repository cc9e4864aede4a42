import ContractKit.Fault
import ContractKit.Text.Blank

/-!
# `Attribute/Token.lean`: the words of an annotation text

An annotation text is cut into quoted literals, numbers, names and the four marks `=`, `,`, `(` and
`)`, each with the column at which it starts. Blanks separate them and are otherwise passed over. A
character that starts none of them is reported where it stands; so is the opening quote of a literal
that is not closed.
-/

set_option autoImplicit false

namespace ContractKit.Attribute

/-- A word of an annotation text. The characters of a literal in quotes are kept as they are written:
which of them are escapes, and whether the escapes stand for anything, is asked when the literal is due.
-/
inductive Lexeme
  /-- A literal in quotes, without them. -/
  | quoted (content : List Char)
  /-- A digit and the digits and underscores after it. -/
  | number (digits : List Char)
  | name (text : String)
  | mark (c : Char)
  deriving DecidableEq, Repr

/-- A word with the column at which it starts. -/
structure Token where
  lexeme : Lexeme
  column : Nat
  deriving DecidableEq, Repr

def isNameStart (c : Char) : Bool := c.isAlpha || c = '_'

def isNameRest (c : Char) : Bool := c.isAlphanum || c = '_'

def isNumberRest (c : Char) : Bool := c.isDigit || c = '_'

def isMark (c : Char) : Bool := c = '=' || c = ',' || c = '(' || c = ')'

def isQuote (c : Char) : Bool := c = '"' || c = '\''

/-- The number of characters before the quote that closes a literal. A backslash takes the character
after it along, which cannot be a line feed. -/
def closing? (quote : Char) : List Char → Option Nat
  | [] => none
  | [c] => if c = quote then some 0 else none
  | c :: d :: cs =>
    if c = quote then some 0
    else if c = '\\' then
      if d = '\n' then none else (closing? quote cs).map (· + 2)
    else (closing? quote (d :: cs)).map (· + 1)

/-- The word that starts with a character, given those after it, and how many of them belong to
it. -/
def lexeme? (c : Char) (cs : List Char) : Option (Lexeme × Nat) :=
  if isMark c then some (.mark c, 0)
  else if isNameStart c then
    let rest := cs.takeWhile isNameRest
    some (.name (String.ofList (c :: rest)), rest.length)
  else if c.isDigit then
    let rest := cs.takeWhile isNumberRest
    some (.number (c :: rest), rest.length)
  else if isQuote c then
    (closing? c cs).map fun n => (.quoted (cs.take n), n + 1)
  else none

/-- The words of a text that starts at a column. -/
def tokensFrom (span : Span) : (column : Nat) → List Char → Except Fault (List Token)
  | _, [] => .ok []
  | column, c :: cs =>
    if Text.isBlank c then tokensFrom span (column + 1) cs
    else
      match lexeme? c cs with
      | some (lexeme, n) =>
        (tokensFrom span (column + 1 + n) (cs.drop n)).map (⟨lexeme, column⟩ :: ·)
      | none =>
        .error (.derive (.single s!"unexpected character {Text.quoted (String.singleton c)}"
          (span.atColumn column)))
termination_by _ cs => cs.length

def tokens (span : Span) (text : String) : Except Fault (List Token) :=
  tokensFrom span 0 text.toList

end ContractKit.Attribute
