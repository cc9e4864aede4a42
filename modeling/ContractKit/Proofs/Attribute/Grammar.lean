import ContractKit.Attribute.Parser
import Mathlib.Data.Nat.Digits.Defs

/-!
# `Proofs/Attribute/Grammar.lean`: the grammar of annotation texts

The grammar says which texts are lists of attributes and which attributes each of them stands for,
over the characters and without a reader: elements with commas between them and blanks around them
(`Listed`), of which the items of a text (`Item`) and the arguments of an item (`Argument`) are two
kinds. The columns of the items are the numbers of characters before them.

Some points of it are a parameter (`Dialect`): by which names literals call characters, what a backslash
may stand before, how many digits a number may have, and whether a bare word may be the value of a name.
`Dialect.documented` is the grammar that annotations are written by; `Dialect.accepted` is the one that
`parse` reads. A text of one dialect belongs to another that allows as much of the characters of that
text (`Reads.mono`).

What a quoted literal denotes is a matter of its code points (`textOf`): the text that they make up, or
the code points themselves where some of them are surrogates, which no text here holds.
-/

set_option autoImplicit false

namespace ContractKit.Attribute

/-- What the grammar of annotation texts leaves open. The parser accepts one dialect and its
documentation describes another; with these four as parameters, both are the same grammar and can be
compared. -/
structure Dialect where
  /-- The names by which characters are called in literals. -/
  chars : Text.CharNames
  /-- The characters that a backslash in a quoted literal may stand before. -/
  escapes : Char → Prop
  /-- How many digits a number may have. -/
  digits : Nat → Prop
  /-- Whether a bare word may stand where the value of a name is due. -/
  bareValues : Prop

namespace Dialect

variable (chars : Text.CharNames)

/-- Values are literals, of any length, and a backslash may stand before any character. -/
def documented : Dialect := ⟨chars, fun _ => True, fun _ => True, False⟩

/-- Bare words are values as well, while long numbers and lines that a backslash joins are left
out. -/
def accepted : Dialect := ⟨chars, (· ≠ '\n'), (· ≤ maxDigits), True⟩

end Dialect

/-! ## Words -/

/-- Blanks only. -/
def Blank (cs : List Char) : Prop := ∀ c ∈ cs, Text.isBlank c = true

/-- A letter or an underscore, and letters, digits and underscores after it. -/
def IsName : List Char → Prop
  | [] => False
  | c :: cs => isNameStart c = true ∧ ∀ r ∈ cs, isNameRest r = true

/-- A digit, and digits and underscores after it. -/
def IsNumber : List Char → Prop
  | [] => False
  | c :: cs => c.isDigit = true ∧ ∀ r ∈ cs, isNumberRest r = true

/-- The digits of a number, without its underscores. -/
def figures (cs : List Char) : List Nat :=
  (cs.filter (· != '_')).map fun c => c.toNat - '0'.toNat

/-- What can stand between two quotes: the quote itself only behind a backslash, which takes the
character after it along. Not every character may be behind one. -/
inductive Inside (escapes : Char → Prop) (quote : Char) : List Char → Prop
  | nil : Inside escapes quote []
  | plain {c : Char} {cs : List Char} (hquote : c ≠ quote) (hslash : c ≠ '\\')
      (hcs : Inside escapes quote cs) : Inside escapes quote (c :: cs)
  | escape {c : Char} {cs : List Char} (hc : escapes c) (hcs : Inside escapes quote cs) :
      Inside escapes quote ('\\' :: c :: cs)

/-- A literal, with the value that it denotes. Nothing is said here of how literals are found in a text;
a quoted one denotes by `Text.unescape?` alone and a number by its digits without the underscores. -/
inductive Literal (d : Dialect) : List Char → Value → Prop
  | quoted {quote : Char} {content : List Char} {codes : List Nat} (hquote : isQuote quote = true)
      (hinside : Inside d.escapes quote content) (hcodes : Text.unescape? d.chars content = some codes) :
      Literal d (quote :: (content ++ [quote])) (textOf codes)
  | number {cs : List Char} (hnumber : IsNumber cs) (hdigits : d.digits (figures cs).length) :
      Literal d cs (.int (Nat.ofDigits 10 (figures cs).reverse : Nat))
  | true : Literal d "true".toList (.bool true)
  | false : Literal d "false".toList (.bool false)

/-- A literal, or a bare word that stands for itself. The two words that are literals are no bare words,
so an argument denotes one value. -/
inductive Argument (d : Dialect) : List Char → Value → Prop
  | literal {cs : List Char} {v : Value} (h : Literal d cs v) : Argument d cs v
  | bare {cs : List Char} (hname : IsName cs) (htrue : cs ≠ "true".toList)
      (hfalse : cs ≠ "false".toList) : Argument d cs (.text (String.ofList cs))

/-- What can stand behind `name =`. -/
def Assigned (d : Dialect) (cs : List Char) (v : Value) : Prop :=
  Literal d cs v ∨ d.bareValues ∧ Argument d cs v

/-! ## Lists and items -/

/-- Elements with commas between them and blanks around them, from a column on. A comma may follow
the last one. -/
inductive Listed {α : Type} (Element : Nat → List Char → α → Prop) :
    Nat → List Char → List α → Prop
  | nil {column : Nat} {blanks : List Char} (hblanks : Blank blanks) :
      Listed Element column blanks []
  | one {column : Nat} {before word after : List Char} {a : α} (hbefore : Blank before)
      (hword : Element (column + before.length) word a) (hafter : Blank after) :
      Listed Element column (before ++ (word ++ after)) [a]
  | cons {column : Nat} {before word after rest : List Char} {a : α} {as : List α}
      (hbefore : Blank before) (hword : Element (column + before.length) word a)
      (hafter : Blank after)
      (hrest : Listed Element (column + before.length + word.length + after.length + 1) rest as) :
      Listed Element column (before ++ (word ++ (after ++ ',' :: rest))) (a :: as)

/-- An item at a column: `name`, `name = value` or `name(arguments)`. The column is that of the name,
and it is where the place of the attribute points to. -/
inductive Item (d : Dialect) (span : Span) : Nat → List Char → Attribute → Prop
  | flag {column : Nat} {name : List Char} (hname : IsName name) :
      Item d span column name
        ⟨String.ofList name, .flag, (span.atAttribute (String.ofList name)).atColumn column⟩
  | value {column : Nat} {name before after word : List Char} {v : Value} (hname : IsName name)
      (hbefore : Blank before) (hafter : Blank after) (hword : Assigned d word v) :
      Item d span column (name ++ (before ++ '=' :: (after ++ word)))
        ⟨String.ofList name, .value v, (span.atAttribute (String.ofList name)).atColumn column⟩
  | list {column : Nat} {name before inner : List Char} {vs : List Value} (hname : IsName name)
      (hbefore : Blank before)
      (hinner : Listed (fun _ => Argument d) (column + name.length + before.length + 1) inner vs) :
      Item d span column (name ++ (before ++ '(' :: (inner ++ [')'])))
        ⟨String.ofList name, .list vs, (span.atAttribute (String.ofList name)).atColumn column⟩

/-- A text is a list of items that stand for some attributes. -/
def Reads (d : Dialect) (span : Span) (text : String) (attrs : List Attribute) : Prop :=
  Listed (Item d span) 0 text.toList attrs

/-- An element of a list is written in a part of its text. -/
theorem Listed.exists_word {α : Type} {Element : Nat → List Char → α → Prop} {column : Nat}
    {cs : List Char} {as : List α} {a : α} (h : Listed Element column cs as) (ha : a ∈ as) :
    ∃ k word, word <:+: cs ∧ Element k word a := by
  induction h with
  | nil => cases ha
  | @one _ before word after _ _ hword _ =>
    rw [List.mem_singleton] at ha
    subst ha
    exact ⟨_, word, ⟨before, after, by simp⟩, hword⟩
  | @cons _ before word after rest _ _ _ hword _ _ ih =>
    cases ha with
    | head => exact ⟨_, word, ⟨before, after ++ ',' :: rest, by simp⟩, hword⟩
    | tail _ ha =>
      obtain ⟨k, part, hpart, hword⟩ := ih ha
      refine ⟨k, part, hpart.trans ?_, hword⟩
      exact ⟨before ++ (word ++ (after ++ [','])), [], by simp⟩

/-- Where bare words are no values, a text is the value of a name in quotes only. -/
theorem Reads.quoted {d : Dialect} {span : Span} {text s : String} {attrs : List Attribute}
    {a : Attribute} (h : Reads d span text attrs) (hd : ¬ d.bareValues) (ha : a ∈ attrs)
    (hs : a.form = .value (.text s)) : ∃ quote ∈ text.toList, isQuote quote = true := by
  obtain ⟨_, word, hpart, hitem⟩ := Listed.exists_word h ha
  cases hitem with
  | @value _ _ _ _ v _ _ _ hword =>
    obtain rfl : v = .text s := AttributeForm.value.inj hs
    cases hword with
    | inr hword => exact absurd hword.1 hd
    | inl hword =>
      generalize htext : Value.text s = v at hword
      cases hword with
      | @quoted quote _ _ hquote _ _ => exact ⟨quote, hpart.subset (by simp), hquote⟩
      | number | true | false => cases htext
  | flag => cases hs
  | list => cases hs

/-! ## Dialects that agree on a text -/

/-- A dialect allows what another one does, as far as some characters go. It is relative to the
characters of a text, since what the parser does not allow needs a line feed or very many digits. -/
structure Dialect.Covers (d d' : Dialect) (cs : List Char) : Prop where
  chars : d.chars = d'.chars
  escapes : ∀ c ∈ cs, d.escapes c → d'.escapes c
  digits : ∀ n ≤ cs.length, d.digits n → d'.digits n
  bareValues : d.bareValues → d'.bareValues

section Covers

variable {d d' : Dialect} {cs : List Char}

theorem Dialect.Covers.part {part : List Char} (h : d.Covers d' cs) (hpart : part <:+: cs) :
    d.Covers d' part :=
  ⟨h.chars, fun c hc => h.escapes c (hpart.subset hc),
    fun n hn => h.digits n (hn.trans hpart.length_le), h.bareValues⟩

theorem Inside.mono {escapes escapes' : Char → Prop} {quote : Char}
    (h : ∀ c ∈ cs, escapes c → escapes' c) (hcs : Inside escapes quote cs) :
    Inside escapes' quote cs := by
  induction hcs with
  | nil => exact .nil
  | plain hquote hslash _ ih =>
    exact .plain hquote hslash (ih fun c hc => h c (List.mem_cons_of_mem _ hc))
  | escape hc _ ih =>
    refine .escape (h _ (by simp) hc) (ih fun c hc => h c ?_)
    exact List.mem_cons_of_mem _ (List.mem_cons_of_mem _ hc)

theorem length_figures_le (cs : List Char) : (figures cs).length ≤ cs.length := by
  rw [figures, List.length_map]
  exact List.length_filter_le _ _

theorem Literal.mono {v : Value} (h : d.Covers d' cs) (hcs : Literal d cs v) :
    Literal d' cs v := by
  cases hcs with
  | @quoted quote _ _ hquote hinside hcodes =>
    rw [h.chars] at hcodes
    exact .quoted hquote (hinside.mono (h.part ⟨[quote], [quote], by simp⟩).escapes) hcodes
  | number hnumber hdigits => exact .number hnumber (h.digits _ (length_figures_le _) hdigits)
  | true => exact .true
  | false => exact .false

theorem Argument.mono {v : Value} (h : d.Covers d' cs) (hcs : Argument d cs v) :
    Argument d' cs v := by
  cases hcs with
  | literal hcs => exact .literal (hcs.mono h)
  | bare hname htrue hfalse => exact .bare hname htrue hfalse

theorem Assigned.mono {v : Value} (h : d.Covers d' cs) (hcs : Assigned d cs v) :
    Assigned d' cs v := by
  cases hcs with
  | inl hcs => exact .inl (hcs.mono h)
  | inr hcs => exact .inr ⟨h.bareValues hcs.1, hcs.2.mono h⟩

/-- A list is one of another kind of elements as well if each of its parts that is an element is of
that kind. -/
theorem Listed.imp {α : Type} {Element Element' : Nat → List Char → α → Prop} {column : Nat}
    {as : List α} (h : Listed Element column cs as)
    (himp : ∀ k word a, word <:+: cs → Element k word a → Element' k word a) :
    Listed Element' column cs as := by
  induction h with
  | nil hblanks => exact .nil hblanks
  | @one _ before _ after _ hbefore hword hafter =>
    exact .one hbefore (himp _ _ _ ⟨before, after, by simp⟩ hword) hafter
  | @cons _ before word after rest _ _ hbefore hword hafter _ ih =>
    refine .cons hbefore (himp _ _ _ ⟨before, after ++ ',' :: rest, by simp⟩ hword) hafter ?_
    refine ih fun k part a hpart => himp k part a (hpart.trans ?_)
    exact ⟨before ++ (word ++ (after ++ [','])), [], by simp⟩

theorem Item.mono {span : Span} {column : Nat} {a : Attribute} (h : d.Covers d' cs)
    (hcs : Item d span column cs a) : Item d' span column cs a := by
  cases hcs with
  | flag hname => exact .flag hname
  | @value name before after word _ hname hbefore hafter hword =>
    refine .value hname hbefore hafter (hword.mono (h.part ?_))
    exact ⟨name ++ (before ++ '=' :: after), [], by simp⟩
  | @list name before inner _ hname hbefore hinner =>
    refine .list hname hbefore (hinner.imp fun _ part v hpart => Argument.mono (h.part ?_))
    exact hpart.trans ⟨name ++ (before ++ ['(']), [')'], by simp⟩

theorem Reads.mono {span : Span} {text : String} {attrs : List Attribute}
    (h : d.Covers d' text.toList) (htext : Reads d span text attrs) : Reads d' span text attrs :=
  Listed.imp htext fun _ _ _ hpart => Item.mono (h.part hpart)

end Covers

end ContractKit.Attribute
