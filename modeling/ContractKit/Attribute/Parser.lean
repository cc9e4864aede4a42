import ContractKit.Attribute.Basic
import ContractKit.Attribute.Token
import ContractKit.Text.Literal

/-!
# `Attribute/Parser.lean`: attributes written as text

The text form is a list of `name`, `name = literal` and `name(literal, …)` items with commas between
them. A comma may follow the last item and the last argument. Literals are quoted texts, decimal
numbers with underscores between the digits, and the words `true` and `false`; any other bare word
stands for itself. A literal can call characters by name, so the names that there are are given.

The whole text is cut into words first, so a character that belongs to none is reported even when
the items before it are at fault too.
-/

set_option autoImplicit false

namespace ContractKit.Attribute

/-- The most digits that a number may have. -/
def maxDigits : Nat := 4300

/-- The number that digits with underscores between them stand for. -/
def numberOf (digits : List Char) : Except Fault Value :=
  let digits := digits.filter (· != '_')
  if maxDigits < digits.length then
    .error (.raised .value
      s!"Exceeds the limit ({maxDigits} digits) for integer string conversion: value has {digits.length} digits; use sys.set_int_max_str_digits() to increase the limit")
  else .ok (.int (Text.digitsValue 10 digits))

/-- The text of some code points. Code points without one are kept as the fault that says so. -/
def textOf (codes : List Nat) : Value :=
  match Text.ofCodes? codes with
  | some s => .text s
  | none => .fault (.surrogates codes)

/-- The value of a literal, a mark apart. A bare word that is neither of the two truth values stands for
itself, whether it is an argument or the value of a name. -/
def literal (chars : Text.CharNames) : Lexeme → Except Fault Value
  | .quoted content =>
    match Text.unescape? chars content with
    | some codes => .ok (textOf codes)
    | none => .error .badLiteral
  | .number digits => numberOf digits
  | .name "true" => .ok (.bool true)
  | .name "false" => .ok (.bool false)
  | .name text => .ok (.text text)
  | .mark c => .ok (.text (String.singleton c))

/-- What the items of a text are read by: the place of the text, the column of its end, and the names
by which its literals can call characters. -/
structure Source where
  span : Span
  stop : Nat
  chars : Text.CharNames

namespace Source

/-- A fault at a word, or at the end of the text. -/
def fail {α : Type} (source : Source) (message : String) (at? : Option Token) : Except Fault α :=
  .error (.derive (.single message
    (source.span.atColumn ((at?.map (·.column)).getD source.stop))))

/-- The place of an item with a name at a column. -/
def itemSpan (source : Source) (name : String) (column : Nat) : Span :=
  (source.span.atAttribute name).atColumn column

end Source

/-- The arguments up to the closing parenthesis, and the words after it. -/
def args (source : Source) : List Token → Except Fault (List Value × List Token)
  | [] => source.fail "unclosed `(`" none
  | ⟨.mark c, column⟩ :: rest =>
    if c = ')' then .ok ([], rest)
    else source.fail s!"unexpected `{c}`" (some ⟨.mark c, column⟩)
  | token :: rest =>
    match literal source.chars token.lexeme with
    | .error f => .error f
    | .ok v =>
      match rest with
      | [] => source.fail "expected `,` or `)`" none
      | separator :: rest =>
        if separator.lexeme = .mark ')' then .ok ([v], rest)
        else if separator.lexeme = .mark ',' then
          match args source rest with
          | .error f => .error f
          | .ok (vs, rest) => .ok (v :: vs, rest)
        else source.fail "expected `,` or `)`" (some separator)

/-- Arguments are followed by fewer words than they start with. -/
theorem length_args_le (source : Source) (ts : List Token) (vs : List Value) (rest : List Token)
    (h : args source ts = .ok (vs, rest)) : rest.length ≤ ts.length := by
  fun_induction args source ts generalizing vs rest with
  | case1 => simp [Source.fail] at h
  | case2 => cases h; simp
  | case3 => simp [Source.fail] at h
  | case4 => cases h
  | case5 => simp [Source.fail] at h
  | case6 => cases h; simp; omega
  | case7 => cases h
  | case8 _ _ _ _ _ _ _ _ _ _ hargs ih => cases h; have := ih _ _ hargs; simp; omega
  | case9 => simp [Source.fail] at h

/-- The item at the front, and the words after it. -/
def item (source : Source) : List Token → Except Fault (Attribute × List Token)
  | [] => source.fail "expected an attribute name" none
  | ⟨.name name, column⟩ :: rest =>
    let span := source.itemSpan name column
    match rest with
    | ⟨.mark '=', _⟩ :: [] => source.fail s!"expected a literal value after `{name} =`" none
    | ⟨.mark '=', _⟩ :: token :: rest =>
      if token.lexeme matches .mark _ then
        source.fail s!"expected a literal value after `{name} =`" (some token)
      else
        match literal source.chars token.lexeme with
        | .error f => .error f
        | .ok v => .ok (⟨name, .value v, span⟩, rest)
    | ⟨.mark '(', _⟩ :: rest =>
      match args source rest with
      | .error f => .error f
      | .ok (vs, rest) => .ok (⟨name, .list vs, span⟩, rest)
    | rest => .ok (⟨name, .flag, span⟩, rest)
  | token :: _ => source.fail "expected an attribute name" (some token)

/-- An item takes at least one word. -/
theorem length_item_lt (source : Source) (ts : List Token) (a : Attribute) (rest : List Token)
    (h : item source ts = .ok (a, rest)) : rest.length < ts.length := by
  unfold item at h
  split at h
  · simp [Source.fail] at h
  · dsimp only at h
    split at h
    · simp [Source.fail] at h
    · split at h
      · simp [Source.fail] at h
      · cases hv : literal _ _ <;> rw [hv] at h
        · cases h
        · cases h; simp; omega
    · split at h
      · cases h
      · next hargs =>
        have := length_args_le source _ _ _ hargs
        cases h; simp; omega
    · cases h; simp
  · simp [Source.fail] at h

/-- The items of a text, and nothing after them. Each item takes at least one word, so the words that
are left get fewer. -/
def items (source : Source) (ts : List Token) : Except Fault (List Attribute) :=
  match ts with
  | [] => .ok []
  | t :: ts =>
    match _h : item source (t :: ts) with
    | .error f => .error f
    | .ok (a, []) => .ok [a]
    | .ok (a, separator :: rest) =>
      if separator.lexeme = .mark ',' then (items source rest).map (a :: ·)
      else source.fail "expected `,` between attributes" (some separator)
termination_by ts.length
decreasing_by
  have := length_item_lt source _ _ _ _h
  simp at this ⊢; omega

def parse (chars : Text.CharNames) (span : Span) (text : String) :
    Except Fault (List Attribute) := do
  let ts ← tokens span text
  items ⟨span, text.length, chars⟩ ts

def parseAll (chars : Text.CharNames) (span : Span) : List String → Except Fault (List Attribute)
  | [] => .ok []
  | text :: texts => do
    let attrs ← parse chars span text
    let more ← parseAll chars span texts
    pure (attrs ++ more)

/-- The code points without a text among the values of an attribute. -/
def surrogates? (a : Attribute) : Option Fault :=
  let values := match a.form with
    | .flag => []
    | .value v => [v]
    | .list vs => vs
  values.findSome? fun
    | .fault (.surrogates codes) => some (.surrogates codes)
    | _ => none

/-- Texts with code points that are no characters are not followed further than here. They are read as
what they are, and whoever looks an attribute up has texts of characters only. -/
def held (attrs : List Attribute) : Except Fault (List Attribute) :=
  match attrs.findSome? surrogates? with
  | some f => .error f
  | none => .ok attrs

/-- The attributes that some texts hold and some options given by keyword stand for, numbered. -/
def collect (chars : Text.CharNames) (span : Span) (texts : List String)
    (options : List (String × Value)) : Except Fault (List Attribute) := do
  let attrs ← parseAll chars span texts
  let attrs ← held attrs
  pure (number (attrs ++ ofOptions span options))

end ContractKit.Attribute
