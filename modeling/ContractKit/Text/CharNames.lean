/-!
# `Text/CharNames.lean`: characters that are called by name

A quoted literal can call a character by its name. Which names there are is told by the character
database of wherever the library runs, so whatever reads literals is given a table of them. All that is
relied on is the alphabet that names are made of.
-/

set_option autoImplicit false

namespace ContractKit.Text

/-- Whether a character can be a part of the name of one. -/
def isNamePart (c : Char) : Bool := c.isAlphanum || c == ' ' || c == '-'

/-- The characters that can be called by name. Names are given as they are written, in either case, and
those that call a character are made of letters and digits of ASCII, spaces and hyphens. -/
structure CharNames where
  find? : String → Option Char
  isNamePart_of_find? : ∀ name c, find? name = some c → ∀ d ∈ name.toList, isNamePart d = true

namespace CharNames

/-- The table without names. -/
def none : CharNames := ⟨fun _ => .none, nofun⟩

/-- The characters of a table, whose names are in upper case. -/
def ofTable (table : List (String × Char)) : CharNames where
  find? name :=
    if name.toList.all isNamePart then
      table.lookup (String.ofList (name.toList.map Char.toUpper))
    else .none
  isNamePart_of_find? name c h := by
    split at h
    · next hall => exact List.all_eq_true.mp hall
    · cases h

/-- The names of the letters of ASCII. -/
def letters : List (String × Char) :=
  "ABCDEFGHIJKLMNOPQRSTUVWXYZ".toList.flatMap fun c =>
    [("LATIN CAPITAL LETTER " ++ String.singleton c, c),
     ("LATIN SMALL LETTER " ++ String.singleton c, c.toLower)]

/-- The names of the other characters of ASCII that are printed, and of a few further marks. -/
def marks : List (String × Char) :=
  [("SPACE", ' '), ("EXCLAMATION MARK", '!'), ("QUOTATION MARK", '"'), ("NUMBER SIGN", '#'),
   ("DOLLAR SIGN", '$'), ("PERCENT SIGN", '%'), ("AMPERSAND", '&'), ("APOSTROPHE", '\''),
   ("LEFT PARENTHESIS", '('), ("RIGHT PARENTHESIS", ')'), ("ASTERISK", '*'), ("PLUS SIGN", '+'),
   ("COMMA", ','), ("HYPHEN-MINUS", '-'), ("FULL STOP", '.'), ("SOLIDUS", '/'),
   ("DIGIT ZERO", '0'), ("DIGIT ONE", '1'), ("DIGIT TWO", '2'), ("DIGIT THREE", '3'),
   ("DIGIT FOUR", '4'), ("DIGIT FIVE", '5'), ("DIGIT SIX", '6'), ("DIGIT SEVEN", '7'),
   ("DIGIT EIGHT", '8'), ("DIGIT NINE", '9'), ("COLON", ':'), ("SEMICOLON", ';'),
   ("LESS-THAN SIGN", '<'), ("EQUALS SIGN", '='), ("GREATER-THAN SIGN", '>'),
   ("QUESTION MARK", '?'), ("COMMERCIAL AT", '@'), ("LEFT SQUARE BRACKET", '['),
   ("REVERSE SOLIDUS", '\\'), ("RIGHT SQUARE BRACKET", ']'), ("CIRCUMFLEX ACCENT", '^'),
   ("LOW LINE", '_'), ("GRAVE ACCENT", '\x60'), ("LEFT CURLY BRACKET", '\x7b'),
   ("VERTICAL LINE", '|'), ("RIGHT CURLY BRACKET", '\x7d'), ("TILDE", '~'),
   ("NO-BREAK SPACE", '\u00a0'), ("DEGREE SIGN", '\u00b0'), ("EN DASH", '\u2013'),
   ("EM DASH", '\u2014'), ("BULLET", '\u2022'), ("HORIZONTAL ELLIPSIS", '\u2026'),
   ("EURO SIGN", '\u20ac'), ("RIGHTWARDS ARROW", '\u2192')]

/-- The names that the program knows by itself. -/
def ascii : CharNames := ofTable (letters ++ marks)

end CharNames

end ContractKit.Text
