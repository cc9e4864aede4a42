/-!
# `Text/Blank.lean`: white space

The characters that separate the tokens of an annotation text and that are dropped around a flag
read from the environment. Besides the six ASCII blanks these are the four information separators,
the next-line control and every space, line and paragraph separator of Unicode.
-/

set_option autoImplicit false

namespace ContractKit.Text

/-- The code points that count as white space, as closed ranges in ascending order. -/
def blankRanges : List (Nat × Nat) :=
  [(0x09, 0x0D), (0x1C, 0x20), (0x85, 0x85), (0xA0, 0xA0), (0x1680, 0x1680), (0x2000, 0x200A),
   (0x2028, 0x2029), (0x202F, 0x202F), (0x205F, 0x205F), (0x3000, 0x3000)]

/-- Whether the character is white space. -/
def isBlank (c : Char) : Bool :=
  blankRanges.any fun range => range.1 ≤ c.toNat && c.toNat ≤ range.2

/-- The text without the blanks at either end. -/
def trimBlanks (s : String) : String :=
  String.ofList ((s.toList.dropWhile isBlank).reverse.dropWhile isBlank).reverse

end ContractKit.Text
