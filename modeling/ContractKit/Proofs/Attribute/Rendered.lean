import ContractKit.Proofs.Attribute.Malformed
import ContractKit.Proofs.Fault.Gather

/-!
# `Proofs/Attribute/Rendered.lean`: options written as texts

An option is given by keyword or written in a text. `Renders` says over the characters which texts
are some options written down: true options as bare names, the others as `name = literal`, texts
between quotes with escapes (`Escaped`), numbers in base ten with underscores between their digits
(`Numeral`), with blanks between all of these and commas that may also follow the last option. Nothing
in it refers to the reader.

`collect_rendered` is the law that ties the two forms together: options that are written down, in
however many texts, are collected as the attributes that the same options stand for when they are
given by keyword, occurrences included, and only the columns tell them apart. The numbers in the texts
may have `maxDigits` digits at most; `collect_long_number` is what happens to one with more.
-/

set_option autoImplicit false

namespace ContractKit

/-! ## Numerals -/

/-- A character is a digit of a base. Letters are digits in either case. -/
def DigitOf (base : Nat) (c : Char) (d : Nat) : Prop :=
  d < base ∧ (c = d.digitChar ∨ c = d.digitChar.toUpper)

/-- The digits of a number in a base, the largest first. -/
def Numeral (base : Nat) (cs : List Char) (n : Nat) : Prop :=
  ∃ ds, List.Forall₂ (DigitOf base) cs ds ∧ n = Nat.ofDigits base ds.reverse

section Digits

variable {base n d : Nat} {c : Char} {cs : List Char}

theorem DigitOf.hex (h : DigitOf 16 c d) :
    Text.hexValue? c = some d ∧ Attribute.isNameRest c = true := by
  obtain ⟨hd, rfl | rfl⟩ := h <;> interval_cases d <;> decide

theorem DigitOf.octal (h : DigitOf 8 c d) :
    Text.isOctal c = true ∧ Text.letterEscape? c = none ∧ Text.hexWidth? c = none := by
  obtain ⟨hd, rfl | rfl⟩ := h <;> interval_cases d <;> decide

theorem DigitOf.decimal (h : DigitOf 10 c d) : c.isDigit = true ∧ c.toNat - '0'.toNat = d := by
  obtain ⟨hd, rfl | rfl⟩ := h <;> interval_cases d <;> decide

theorem DigitOf.mono {base' : Nat} (h : DigitOf base c d) (hbase : base ≤ base') :
    DigitOf base' c d :=
  ⟨h.1.trans_le hbase, h.2⟩

theorem Numeral.digitOf (h : Numeral base cs n) (hc : c ∈ cs) : ∃ d, DigitOf base c d := by
  obtain ⟨ds, hds, -⟩ := h
  obtain ⟨d, -, hd⟩ := exists_of_forall₂_right hds.flip hc
  exact ⟨d, hd⟩

theorem ofDigits_reverse (base : Nat) (ds : List Nat) :
    Nat.ofDigits base ds.reverse = ds.foldl (fun n d => base * n + d) 0 := by
  rw [Nat.ofDigits_eq_foldr, List.foldr_reverse]
  simp only [Nat.cast_id, Nat.add_comm]

theorem hexNumber?_numeral (h : Numeral 16 cs n) : Text.hexNumber? 0 cs = some n := by
  obtain ⟨ds, hds, rfl⟩ := h
  rw [ofDigits_reverse]
  generalize 0 = acc
  induction hds generalizing acc with
  | nil => rfl
  | cons hd _ ih => rw [Text.hexNumber?, hd.hex.1, Option.bind_some, ih, List.foldl_cons]

theorem digitsValue_numeral (h : Numeral 8 cs n) : Text.digitsValue 8 cs = n := by
  obtain ⟨ds, hds, rfl⟩ := h
  rw [ofDigits_reverse, Text.digitsValue]
  generalize 0 = acc
  induction hds generalizing acc with
  | nil => rfl
  | cons hd _ ih =>
    rw [List.foldl_cons, List.foldl_cons, (hd.mono (by omega)).decimal.2, ih]

theorem map_numeral {ds : List Nat} (h : List.Forall₂ (DigitOf 10) cs ds) :
    cs.map (fun c => c.toNat - '0'.toNat) = ds := by
  induction h with
  | nil => rfl
  | cons hd _ ih => rw [List.map_cons, hd.decimal.2, ih]

end Digits

/-! ## Escapes -/

namespace Text

section Escapes

variable {chars : CharNames} {c letter : Char} {cs name digits : List Char} {codes : List Nat}

theorem unescape?_plain (hslash : c ≠ '\\') (hline : c ≠ '\n' ∧ c ≠ '\r' ∧ c ≠ '\x00') :
    unescape? chars (c :: cs) = (unescape? chars cs).map (c.toNat :: ·) := by
  rw [unescape?]
  simp [hslash, hline]

theorem unescape?_escape {n : Nat} (h : escape? chars cs = some (codes, n)) :
    unescape? chars ('\\' :: cs) = (unescape? chars (cs.drop n)).map (codes ++ ·) := by
  rw [unescape?]
  simp [h]

theorem escape?_letter (h : letterEscape? letter = some c) :
    escape? chars (letter :: cs) = some ([c.toNat], 1) := by
  have hnone : letterEscape? '\r' = none ∧ letterEscape? '\n' = none := by decide
  have hline : letter ≠ '\r' ∧ letter ≠ '\n' := by
    constructor <;> rintro rfl <;> simp [hnone] at h
  unfold escape?
  split <;> simp_all

theorem hexWidth?_cases {width : Nat} (h : hexWidth? letter = some width) :
    letter = 'x' ∨ letter = 'u' ∨ letter = 'U' := by
  simp only [hexWidth?, List.lookup_cons, List.lookup_nil] at h
  split at h
  · exact .inl (eq_of_beq ‹_›)
  · split at h
    · exact .inr (.inl (eq_of_beq ‹_›))
    · split at h
      · exact .inr (.inr (eq_of_beq ‹_›))
      · cases h

/-- The code point of a character is not too large for one. -/
theorem toNat_lt (c : Char) : c.toNat < 0x110000 := by
  rcases c.valid with h | ⟨-, h⟩
  · exact Nat.lt_trans h (by decide)
  · exact h

theorem escape?_hex (hwidth : hexWidth? letter = some digits.length)
    (hdigits : Numeral 16 digits c.toNat) :
    escape? chars (letter :: (digits ++ cs)) = some ([c.toNat], 1 + digits.length) := by
  have hletter : letterEscape? letter = none ∧ letter ≠ '\r' ∧ letter ≠ '\n' := by
    obtain rfl | rfl | rfl := hexWidth?_cases hwidth <;> decide
  have hescape : hexEscape? digits.length (digits ++ cs) = some c.toNat := by
    rw [hexEscape?, List.take_left, if_pos rfl, hexNumber?_numeral hdigits, Option.bind_some,
      if_pos (toNat_lt c)]
  unfold escape?
  split <;> simp_all

theorem octalRun_numeral {n : Nat} (hlength : digits.length ≤ 3) (hdigits : Numeral 8 digits n)
    (hend : digits.length = 3 ∨ ∀ d ∈ cs.head?, isOctal d = false) :
    octalRun (digits ++ cs) = digits := by
  have hrun : ∀ d ∈ digits, isOctal d = true := by
    intro d hd
    obtain ⟨v, hv⟩ := hdigits.digitOf hd
    exact hv.octal.1
  cases hend with
  | inl hend => rw [octalRun, ← hend, List.take_left, List.takeWhile_eq_self_iff.mpr hrun]
  | inr hend =>
    rw [octalRun, List.take_append, List.take_of_length_le hlength]
    refine Attribute.takeWhile_run hrun fun d hd => hend d ?_
    cases hcount : 3 - digits.length with
    | zero => simp [hcount] at hd
    | succ k => cases cs <;> simp_all

theorem escape?_octal (hsome : digits ≠ []) (hlength : digits.length ≤ 3)
    (hdigits : Numeral 8 digits c.toNat)
    (hend : digits.length = 3 ∨ ∀ d ∈ cs.head?, isOctal d = false) :
    escape? chars (digits ++ cs) = some ([c.toNat], digits.length) := by
  have hrun := octalRun_numeral hlength hdigits hend
  have hvalue := digitsValue_numeral hdigits
  obtain ⟨d, digits, rfl⟩ := List.exists_cons_of_ne_nil hsome
  obtain ⟨v, hv⟩ := hdigits.digitOf List.mem_cons_self
  have hd := hv.octal
  have hline : d ≠ '\r' ∧ d ≠ '\n' := by
    constructor <;> rintro rfl <;> cases hd.1
  rw [List.cons_append] at hrun ⊢
  unfold escape?
  split <;> simp_all

/-- The name of a character closes no brace, and no quote either. -/
theorem CharNames.ne_of_find? (h : chars.find? (String.ofList name) = some c) {d : Char}
    (hd : d ∈ name) : d ≠ '}' ∧ d ≠ '"' ∧ d ≠ '\'' ∧ d ≠ '\\' := by
  have hpart : isNamePart d = true :=
    chars.isNamePart_of_find? _ c h d (by rwa [String.toList_ofList])
  refine ⟨?_, ?_, ?_, ?_⟩
  all_goals
    rintro rfl
    cases hpart

theorem escape?_named (hsome : name ≠ []) (hfind : chars.find? (String.ofList name) = some c) :
    escape? chars ('N' :: '{' :: (name ++ '}' :: cs)) = some ([c.toNat], name.length + 3) := by
  have hname : (name ++ '}' :: cs).takeWhile (· != '}') = name := by
    have hrun : ∀ d ∈ name, (d != '}') = true := by
      intro d hd
      exact bne_iff_ne.mpr (chars.ne_of_find? hfind hd).1
    rw [List.takeWhile_append_of_pos hrun, List.takeWhile_cons_of_neg (by simp), List.append_nil]
  have hnamed : namedEscape? chars ('{' :: (name ++ '}' :: cs)) = some (c.toNat, name.length + 2) := by
    simp [namedEscape?, hname, hsome, hfind]
  have hletter : letterEscape? 'N' = none ∧ hexWidth? 'N' = none ∧ isOctal 'N' = false := by decide
  simp [escape?, hletter, hnamed]
  omega

/-- The text of the code points of some characters. -/
theorem ofCodes?_map (cs : List Char) : ofCodes? (cs.map Char.toNat) = some (String.ofList cs) := by
  have hchars : (cs.map Char.toNat).mapM charOf? = some cs := by
    induction cs with
    | nil => rfl
    | cons c cs ih =>
      have hvalid : c.toNat.isValidChar := c.valid
      have hc : charOf? c.toNat = some c := by
        rw [charOf?, if_pos hvalid, Char.ofNat_toNat]
      rw [List.map_cons, List.mapM_cons, hc, ih]
      rfl
  rw [ofCodes?, hchars]
  rfl

end Escapes

end Text

namespace Attribute

/-! ## Renderings -/

/-- What stands between two quotes for a text: its characters, as they are or as escapes. These are all
the escapes that a literal has for a character. -/
inductive Escaped (chars : Text.CharNames) (quote : Char) : List Char → List Char → Prop
  | nil : Escaped chars quote [] []
  | plain {c : Char} {cs text : List Char} (hquote : c ≠ quote) (hslash : c ≠ '\\')
      (hline : c ≠ '\n' ∧ c ≠ '\r' ∧ c ≠ '\x00') (hcs : Escaped chars quote cs text) :
      Escaped chars quote (c :: cs) (c :: text)
  | letter {letter c : Char} {cs text : List Char} (hletter : Text.letterEscape? letter = some c)
      (hcs : Escaped chars quote cs text) : Escaped chars quote ('\\' :: letter :: cs) (c :: text)
  /-- A letter and as many hexadecimal digits as it asks for. -/
  | hex {letter c : Char} {digits cs text : List Char}
      (hwidth : Text.hexWidth? letter = some digits.length) (hdigits : Numeral 16 digits c.toNat)
      (hcs : Escaped chars quote cs text) :
      Escaped chars quote ('\\' :: letter :: (digits ++ cs)) (c :: text)
  /-- Up to three octal digits, which no other follows where there could be more. -/
  | octal {c : Char} {digits cs text : List Char} (hsome : digits ≠ [])
      (hlength : digits.length ≤ 3) (hdigits : Numeral 8 digits c.toNat)
      (hend : digits.length = 3 ∨ ∀ d ∈ cs.head?, Text.isOctal d = false)
      (hcs : Escaped chars quote cs text) : Escaped chars quote ('\\' :: (digits ++ cs)) (c :: text)
  /-- The name of the character between braces. -/
  | named {c : Char} {name cs text : List Char} (hsome : name ≠ [])
      (hfind : chars.find? (String.ofList name) = some c) (hcs : Escaped chars quote cs text) :
      Escaped chars quote ('\\' :: 'N' :: '{' :: (name ++ '}' :: cs)) (c :: text)

/-- A literal written for a value: a text between quotes, or a number in base ten, with underscores
anywhere after its first digit. -/
inductive Denotes (d : Dialect) : List Char → Value → Prop
  | text {quote : Char} {content text : List Char} (hquote : quote = '"' ∨ quote = '\'')
      (hcontent : Escaped d.chars quote content text) :
      Denotes d (quote :: (content ++ [quote])) (.text (String.ofList text))
  | number {c : Char} {cs : List Char} {n : Nat} (hc : c ≠ '_')
      (hnumeral : Numeral 10 ((c :: cs).filter (· != '_')) n)
      (hdigits : d.digits ((c :: cs).filter (· != '_')).length) : Denotes d (c :: cs) (.int n)

/-- An option written down: a true one as its name, any other with its value behind the name. An option
has many renderings, by the blanks, quotes, escapes and underscores in it, and this is any of them. -/
inductive Written (d : Dialect) : List Char → String × Value → Prop
  | flag {name : List Char} (hname : IsName name) : Written d name (String.ofList name, .bool true)
  | value {name before after word : List Char} {v : Value} (hname : IsName name)
      (hbefore : Blank before) (hafter : Blank after) (hword : Denotes d word v) :
      Written d (name ++ (before ++ '=' :: (after ++ word))) (String.ofList name, v)

/-- A text is some options written down, each at a column. -/
def Renders (d : Dialect) (text : String) (options : List ((String × Value) × Nat)) : Prop :=
  Listed (fun column word option => Written d word option.1 ∧ option.2 = column) 0 text.toList
    options

/-! ## Renderings in the grammar -/

section Grammar

variable {chars : Text.CharNames} {quote : Char} {content text cs : List Char} {v : Value}

theorem Inside.behind_plain {escapes : Char → Prop} {run : List Char}
    (hcs : Inside escapes quote cs) (hrun : ∀ c ∈ run, c ≠ quote ∧ c ≠ '\\') :
    Inside escapes quote (run ++ cs) := by
  induction run with
  | nil => exact hcs
  | cons c run ih =>
    obtain ⟨hc, hrun⟩ := List.forall_mem_cons.mp hrun
    exact .plain hc.1 hc.2 (ih hrun)

theorem ne_quote_of_digitOf {c : Char} {v : Nat} (hquote : quote = '"' ∨ quote = '\'')
    (hc : DigitOf 16 c v) : c ≠ quote ∧ c ≠ '\\' := by
  have hrest := hc.hex.2
  constructor
  · rintro rfl
    obtain rfl | rfl := hquote <;> cases hrest
  · rintro rfl
    cases hrest

/-- What is written for a text stands between the quotes. -/
theorem Escaped.inside (hquote : quote = '"' ∨ quote = '\'')
    (h : Escaped chars quote content text) : Inside (· ≠ '\n') quote content := by
  -- no escape has a line feed behind its backslash, and what it is made of besides is plain
  induction h with
  | nil => exact .nil
  | plain hc hslash _ _ ih => exact .plain hc hslash ih
  | @letter letter _ _ _ hletter _ ih =>
    have hline : letter ≠ '\n' := by
      rintro rfl
      cases hletter
    exact .escape hline ih
  | @hex letter _ digits _ _ hwidth hdigits _ ih =>
    have hline : letter ≠ '\n' := by
      obtain rfl | rfl | rfl := Text.hexWidth?_cases hwidth <;> decide
    refine .escape hline (ih.behind_plain fun c hc => ?_)
    obtain ⟨v, hv⟩ := hdigits.digitOf hc
    exact ne_quote_of_digitOf hquote hv
  | octal hsome _ hdigits _ _ ih =>
    obtain ⟨d, digits, rfl⟩ := List.exists_cons_of_ne_nil hsome
    have hrun : ∀ c ∈ d :: digits, ∃ v, DigitOf 8 c v := fun c hc => hdigits.digitOf hc
    have hline : d ≠ '\n' := by
      rintro rfl
      obtain ⟨v, hv⟩ := hrun _ List.mem_cons_self
      cases hv.octal.1
    refine .escape hline (ih.behind_plain fun c hc => ?_)
    obtain ⟨v, hv⟩ := hrun c (List.mem_cons_of_mem _ hc)
    exact ne_quote_of_digitOf hquote (hv.mono (by omega))
  -- names of characters hold neither quotes nor backslashes, whatever table they come from
  | named _ hfind _ ih =>
    have hopen : '{' ≠ quote ∧ '}' ≠ quote := by
      obtain rfl | rfl := hquote <;> decide
    refine .escape (by decide) (.plain hopen.1 (by decide) ?_)
    refine Inside.behind_plain (.plain hopen.2 (by decide) ih) fun d hd => ?_
    obtain ⟨-, hdouble, hsingle, hslash⟩ := chars.ne_of_find? hfind hd
    obtain rfl | rfl := hquote
    · exact ⟨hdouble, hslash⟩
    · exact ⟨hsingle, hslash⟩

/-- What is written for a text denotes the code points of its characters. -/
theorem Escaped.unescape? (h : Escaped chars quote content text) :
    Text.unescape? chars content = some (text.map Char.toNat) := by
  induction h with
  | nil => rw [Text.unescape?, List.map_nil]
  | plain _ hslash hline _ ih => rw [Text.unescape?_plain hslash hline, ih, Option.map_some, List.map_cons]
  | letter hletter _ ih =>
    rw [Text.unescape?_escape (Text.escape?_letter hletter), List.drop_succ_cons, List.drop_zero,
      ih]
    rfl
  | hex hwidth hdigits _ ih =>
    rw [Text.unescape?_escape (Text.escape?_hex hwidth hdigits), Nat.add_comm,
      List.drop_succ_cons, List.drop_left, ih]
    rfl
  | octal hsome hlength hdigits hend _ ih =>
    rw [Text.unescape?_escape (Text.escape?_octal hsome hlength hdigits hend), List.drop_left, ih]
    rfl
  | @named c name cs text hsome hfind _ ih =>
    have hrest : ('N' :: '{' :: (name ++ '}' :: cs)).drop (name.length + 3) = cs := by
      simp
    rw [Text.unescape?_escape (Text.escape?_named hsome hfind), hrest, ih]
    rfl

theorem figures_of_numeral {n : Nat} (h : Numeral 10 (cs.filter (· != '_')) n) :
    Nat.ofDigits 10 (figures cs).reverse = n := by
  obtain ⟨ds, hds, rfl⟩ := h
  rw [figures, map_numeral hds]

theorem isNumber_of_numeral {c : Char} {n : Nat} (hc : c ≠ '_')
    (h : Numeral 10 ((c :: cs).filter (· != '_')) n) : IsNumber (c :: cs) := by
  have hdigit : ∀ r ∈ c :: cs, r ≠ '_' → r.isDigit = true := by
    intro r hr hne
    obtain ⟨d, hd⟩ := h.digitOf (List.mem_filter.mpr ⟨hr, bne_iff_ne.mpr hne⟩)
    exact hd.decimal.1
  refine ⟨hdigit c List.mem_cons_self hc, fun r hr => ?_⟩
  rw [isNumberRest, Bool.or_eq_true, decide_eq_true_iff]
  by_cases hne : r = '_'
  · exact .inr hne
  · exact .inl (hdigit r (List.mem_cons_of_mem _ hr) hne)

theorem textOf_map (text : List Char) : textOf (text.map Char.toNat) = .text (String.ofList text) := by
  rw [textOf, Text.ofCodes?_map]

theorem Denotes.literal (h : Denotes (.accepted chars) cs v) : Literal (.accepted chars) cs v := by
  cases h with
  | @text quote _ text hquote hcontent =>
    have hmark : isQuote quote = true := by obtain rfl | rfl := hquote <;> rfl
    rw [← textOf_map]
    exact .quoted hmark (hcontent.inside hquote) hcontent.unescape?
  | number hc hnumeral hdigits =>
    rw [← figures_of_numeral hnumeral]
    refine .number (isNumber_of_numeral hc hnumeral) ?_
    rw [figures, List.length_map]
    exact hdigits

end Grammar

/-! ## Options as attributes -/

/-- The form of the attribute that an option stands for. -/
def formOf : Value → AttributeForm
  | .bool true => .flag
  | v => .value v

/-- The attribute that an option stands for. -/
def ofGiven (span : Span) (option : String × Value) : Attribute :=
  ⟨option.1, formOf option.2, span.atAttribute option.1⟩

/-- The same attribute at a column. -/
def atColumn (a : Attribute) (column : Nat) : Attribute :=
  { a with span := a.span.atColumn column }

section Options

variable {chars : Text.CharNames} {d : Dialect} {span : Span} {word : List Char}
  {option : String × Value}

theorem Denotes.formOf {v : Value} (h : Denotes d word v) : Attribute.formOf v = .value v := by
  cases h <;> rfl

theorem Written.item (h : Written (.accepted chars) word option) (column : Nat) :
    Item (.accepted chars) span column word ((ofGiven span option).atColumn column) := by
  cases h with
  | flag hname => exact .flag hname
  | value hname hbefore hafter hword =>
    rw [ofGiven, hword.formOf]
    exact .value hname hbefore hafter (.inl hword.literal)

theorem Written.ofOption? (h : Written d word option) :
    Attribute.ofOption? span option.1 option.2 = some (ofGiven span option) := by
  cases h with
  | flag => rfl
  | value _ _ _ hword => cases hword <;> rfl

theorem Written.surrogates? (h : Written d word option) (column : Nat) :
    Attribute.surrogates? ((ofGiven span option).atColumn column) = none := by
  cases h with
  | flag => rfl
  | value _ _ _ hword => cases hword <;> rfl

/-- A list is one of other elements as well if each of its elements stands for one. -/
theorem Listed.map {α β : Type} {Element : Nat → List Char → α → Prop}
    {Element' : Nat → List Char → β → Prop} {column : Nat} {cs : List Char} {as : List α}
    (h : Listed Element column cs as) (g : α → β)
    (hg : ∀ k word a, Element k word a → Element' k word (g a)) :
    Listed Element' column cs (as.map g) := by
  induction h with
  | nil hblanks => exact .nil hblanks
  | one hbefore hword hafter => exact .one hbefore (hg _ _ _ hword) hafter
  | cons hbefore hword hafter _ ih => exact .cons hbefore (hg _ _ _ hword) hafter ih

theorem Listed.of_word {α : Type} {Element : Nat → List Char → α → Prop} {column : Nat} {a : α}
    (h : Element column word a) : Listed Element column word [a] := by
  have hone := @Listed.one _ Element column [] word [] a (List.forall_mem_nil _) h
    (List.forall_mem_nil _)
  rwa [List.append_nil, List.nil_append] at hone

variable {text : String} {texts : List String} {options : List ((String × Value) × Nat)}
  {groups : List (List ((String × Value) × Nat))}

theorem Renders.reads (h : Renders (.accepted chars) text options) :
    Reads (.accepted chars) span text (options.map fun o => (ofGiven span o.1).atColumn o.2) := by
  refine Listed.map h _ fun k word o ho => ?_
  rw [ho.2]
  exact ho.1.item k

theorem parseAll_rendered (h : List.Forall₂ (Renders (.accepted chars)) texts groups) :
    parseAll chars span texts =
      .ok (groups.flatten.map fun o => (ofGiven span o.1).atColumn o.2) := by
  induction h with
  | nil => rfl
  | cons htext _ ih =>
    rw [parseAll, parse_of_reads htext.reads, ih, List.flatten_cons, List.map_append]
    rfl

/-- What is written down has a text, so it is followed. -/
theorem held_rendered (h : List.Forall₂ (Renders d) texts groups) :
    held (groups.flatten.map fun o => (ofGiven span o.1).atColumn o.2) =
      .ok (groups.flatten.map fun o => (ofGiven span o.1).atColumn o.2) := by
  have hnone : (groups.flatten.map fun o => (ofGiven span o.1).atColumn o.2).findSome? surrogates? =
      none := by
    rw [List.findSome?_eq_none_iff]
    intro a ha
    obtain ⟨o, ho, rfl⟩ := List.mem_map.mp ha
    obtain ⟨group, hgroup, ho⟩ := List.mem_flatten.mp ho
    obtain ⟨text, -, htext⟩ := exists_of_forall₂_right h hgroup
    obtain ⟨_, word, -, hword, -⟩ := Listed.exists_word htext ho
    exact hword.surrogates? o.2
  rw [held, hnone]

theorem ofOptions_rendered (h : List.Forall₂ (Renders d) texts groups) :
    ofOptions span (groups.flatten.map Prod.fst) =
      groups.flatten.map fun o => ofGiven span o.1 := by
  rw [ofOptions, List.filterMap_map, ← List.filterMap_eq_map]
  refine List.filterMap_congr fun o ho => ?_
  obtain ⟨group, hgroup, ho⟩ := List.mem_flatten.mp ho
  obtain ⟨text, -, htext⟩ := exists_of_forall₂_right h hgroup
  obtain ⟨_, word, -, hword⟩ := Listed.exists_word htext ho
  exact hword.1.ofOption?

end Options

/-! ## Counting occurrences -/

section Numbered

variable {before : List String}

/-- Occurrences are counted by name, wherever the attributes stand. -/
theorem numberFrom_atColumn {α : Type} (g : α → Attribute) (column : α → Nat) (as : List α) :
    numberFrom before (as.map fun a => (g a).atColumn (column a)) =
      List.zipWith atColumn (numberFrom before (as.map g)) (as.map column) := by
  induction as generalizing before with
  | nil => rfl
  | cons a as ih =>
    rw [List.map_cons, numberFrom, ih]
    rfl

theorem getElem?_numberFrom (attrs : List Attribute) (i : Nat) :
    (numberFrom before attrs)[i]? = attrs[i]?.map fun a =>
      { a with span := { a.span with
          index := some (before.count a.name + ((attrs.take i).map Attribute.name).count a.name) } } := by
  induction attrs generalizing before i with
  | nil => rfl
  | cons a attrs ih =>
    cases i with
    | zero => simp [numberFrom]
    | succ i =>
      rw [numberFrom, List.getElem?_cons_succ, List.getElem?_cons_succ, ih, List.take_succ_cons,
        List.map_cons]
      congr 1
      funext b
      rw [List.count_cons, List.count_cons, Nat.add_right_comm, Nat.add_assoc]

end Numbered

/-- **Writing options down and giving them by keyword are the same.** The attributes that are
collected from texts are those of the options by keyword, each at the column of its name: in the same
order, with the names and values of the options, and counted by name. -/
theorem collect_rendered {chars : Text.CharNames} {span : Span} {texts : List String}
    {groups : List (List ((String × Value) × Nat))}
    (h : List.Forall₂ (Renders (.accepted chars)) texts groups) :
    ∃ attrs, collect chars span [] (groups.flatten.map (·.1)) = .ok attrs ∧
      collect chars span texts [] = .ok (List.zipWith atColumn attrs (groups.flatten.map (·.2))) ∧
      ∀ i : Nat, attrs[i]? = (groups.flatten.map (·.1))[i]?.map fun option =>
        (⟨option.1, formOf option.2, { span with
          attr := some option.1
          index := some (((groups.flatten.take i).map (·.1.1)).count option.1) }⟩ : Attribute) := by
  refine ⟨number (groups.flatten.map fun o => ofGiven span o.1), ?_, ?_, fun i => ?_⟩
  · rw [collect, parseAll, ofOptions_rendered h]
    rfl
  · rw [collect, parseAll_rendered h, number, ← numberFrom_atColumn]
    show ((held _).bind fun _ => _) = _
    rw [held_rendered h]
    simp [Except.bind, pure, Except.pure, ofOptions, number]
  · rw [number, getElem?_numberFrom, List.getElem?_map, List.getElem?_map, Option.map_map,
      Option.map_map, ← List.map_take, List.map_map]
    congr 1
    funext o
    simp only [Function.comp_apply, List.count_nil, Nat.zero_add]
    rfl

/-- A table with one name. -/
def oneName : Text.CharNames := .ofTable [("APOSTROPHE", '\'')]

/-- Three options in two texts, with a character that is called by name. -/
theorem collect_rendered_texts :
    List.Forall₂ (Renders (.accepted oneName)) ["a, b = 'it\\N\x7bapostrophe\x7ds',", "a = 1_0"]
      [[(("a", .bool true), 0), (("b", .text "it's"), 3)], [(("a", .int 10), 0)]] ∧
    ∃ attrs,
      collect oneName ⟨"Foo", none, none, none, none⟩ []
        [("a", .bool true), ("b", .text "it's"), ("a", .int 10)] = .ok attrs ∧
      collect oneName ⟨"Foo", none, none, none, none⟩
          ["a, b = 'it\\N\x7bapostrophe\x7ds',", "a = 1_0"] [] =
        .ok (List.zipWith atColumn attrs [0, 3, 0]) ∧
      attrs[2]? =
        some ⟨"a", .value (.int 10), ⟨"Foo", none, some "a", some 1, none⟩⟩ := by
  have hnone : Blank [] := List.forall_mem_nil _
  have hspace : Blank [' '] := List.forall_mem_singleton.mpr rfl
  have ha : IsName ['a'] := ⟨rfl, List.forall_mem_nil _⟩
  have hb : IsName ['b'] := ⟨rfl, List.forall_mem_nil _⟩
  have hfind : oneName.find? (String.ofList "apostrophe".toList) = some '\'' := by decide
  have hcontent : Escaped oneName '\''
      ['i', 't', '\\', 'N', '{', 'a', 'p', 'o', 's', 't', 'r', 'o', 'p', 'h', 'e', '}', 's']
      ['i', 't', '\'', 's'] :=
    .plain (by decide) (by decide) (by decide) (.plain (by decide) (by decide) (by decide)
      (@Escaped.named _ _ '\'' "apostrophe".toList ['s'] ['s'] (by decide) hfind
        (.plain (by decide) (by decide) (by decide) .nil)))
  have hquoted : Denotes (.accepted oneName) "'it\\N\x7bapostrophe\x7ds'".toList (.text "it's") :=
    @Denotes.text (.accepted oneName) '\'' _ _ (.inr rfl) hcontent
  have hnumber : Denotes (.accepted oneName) "1_0".toList (.int 10) :=
    .number (by decide) ⟨[1, 0], .cons ⟨by omega, .inl rfl⟩ (.cons ⟨by omega, .inl rfl⟩ .nil), rfl⟩
      (show 2 ≤ maxDigits by decide)
  have htexts : List.Forall₂ (Renders (.accepted oneName))
      ["a, b = 'it\\N\x7bapostrophe\x7ds',", "a = 1_0"]
      [[(("a", .bool true), 0), (("b", .text "it's"), 3)], [(("a", .int 10), 0)]] := by
    refine .cons ?_ (.cons ?_ .nil)
    · exact @Listed.cons _ _ 0 [] "a".toList [] " b = 'it\\N\x7bapostrophe\x7ds',".toList _ _ hnone
        (And.intro (.flag ha) rfl) hnone
        (@Listed.cons _ _ 2 [' '] "b = 'it\\N\x7bapostrophe\x7ds'".toList [] [] _ _ hspace
          (And.intro (.value hb hspace hspace hquoted) rfl) hnone (.nil hnone))
    · exact .of_word (And.intro (.value ha hspace hspace hnumber) rfl)
  obtain ⟨attrs, hgiven, hwritten, hattrs⟩ :=
    @collect_rendered oneName ⟨"Foo", none, none, none, none⟩ _ _ htexts
  exact ⟨htexts, attrs, hgiven, hwritten, hattrs 2⟩

/-! ## Long numbers -/

section LongNumbers

variable {chars : Text.CharNames} {n : Nat}

/-- The text `a = 1…1` with as many digits and one more. -/
def longText (n : Nat) : String :=
  String.ofList ("a = ".toList ++ List.replicate (n + 1) '1')

theorem toList_longText :
    (longText n).toList = "a = ".toList ++ List.replicate (n + 1) '1' :=
  String.toList_ofList

theorem filter_ones : (List.replicate n '1').filter (· != '_') = List.replicate n '1' :=
  List.filter_replicate_of_pos (by decide)

theorem numeral_ones :
    Numeral 10 (List.replicate n '1') (Nat.ofDigits 10 (List.replicate n 1)) := by
  refine ⟨List.replicate n 1, ?_, by rw [List.reverse_replicate]⟩
  induction n with
  | zero => exact .nil
  | succ n ih => exact .cons ⟨by omega, .inl rfl⟩ ih

theorem renders_longText : Renders (.documented chars) (longText n)
    [(("a", .int (Nat.ofDigits 10 (List.replicate (n + 1) 1) : Nat)), 0)] := by
  have hspace : Blank [' '] := List.forall_mem_singleton.mpr rfl
  have ha : IsName ['a'] := ⟨rfl, List.forall_mem_nil _⟩
  have hword : Denotes (.documented chars) (List.replicate (n + 1) '1')
      (.int (Nat.ofDigits 10 (List.replicate (n + 1) 1) : Nat)) := by
    refine @Denotes.number _ '1' (List.replicate n '1') _ (by decide) ?_ trivial
    rw [← List.replicate_succ, filter_ones]
    exact numeral_ones
  have hoption : Written (.documented chars) ("a = ".toList ++ List.replicate (n + 1) '1')
      ("a", .int (Nat.ofDigits 10 (List.replicate (n + 1) 1) : Nat)) :=
    .value ha hspace hspace hword
  rw [Renders, toList_longText]
  exact .of_word ⟨hoption, rfl⟩

theorem stumbles_longText {span : Span} (hn : maxDigits ≤ n) :
    Stumbles chars span (longText n) (tooManyDigits (n + 1)) := by
  have hspace : Blank [' '] := List.forall_mem_singleton.mpr rfl
  have ha : IsName ['a'] := ⟨rfl, List.forall_mem_nil _⟩
  have hfront : Due (.accepted chars) span 0 "a = ".toList :=
    ⟨[], _, rfl, .here (List.forall_mem_nil _), .value ha hspace hspace⟩
  have hones : IsNumber (List.replicate (n + 1) '1') :=
    ⟨rfl, fun c hc => by rw [List.eq_of_mem_replicate hc]; rfl⟩
  have hlength : (figures (List.replicate (n + 1) '1')).length = n + 1 := by
    rw [figures, List.length_map, filter_ones, List.length_replicate]
  have hword : Undenoting chars (List.replicate (n + 1) '1') [] (tooManyDigits (n + 1)) := by
    have hends : Ends (.number (List.replicate (n + 1) '1')) [] := stops_nil.ends _
    have hword := @Undenoting.number chars _ _ hones hends (by omega)
    rwa [hlength] at hword
  refine ⟨_, _, [], [], ?_, hfront, hword, .nil (List.forall_mem_nil _)⟩
  rw [toList_longText, List.append_nil]

theorem collect_error {span : Span} {text : String} {texts : List String}
    {options : List (String × Value)} {f : Fault} (h : parse chars span text = .error f) :
    collect chars span (text :: texts) options = .error f := by
  rw [collect, parseAll, h]
  rfl

end LongNumbers

/-- A number of more digits than one may have is refused in a text, while it is a value like any other
when it is given by keyword. -/
theorem collect_long_number :
    List.Forall₂ (Renders (.documented .none)) [longText 4300]
      [[(("a", .int (Nat.ofDigits 10 (List.replicate 4301 1) : Nat)), 0)]] ∧
    collect .none ⟨"Foo", none, none, none, none⟩ [longText 4300] [] = .error (tooManyDigits 4301) ∧
    collect .none ⟨"Foo", none, none, none, none⟩ []
        [("a", .int (Nat.ofDigits 10 (List.replicate 4301 1) : Nat))] =
      .ok [⟨"a", .value (.int (Nat.ofDigits 10 (List.replicate 4301 1) : Nat)),
        ⟨"Foo", none, some "a", some 0, none⟩⟩] := by
  refine ⟨.cons renders_longText .nil, ?_, rfl⟩
  exact collect_error (parse_of_stumbles (stumbles_longText (le_refl _)))

end Attribute

end ContractKit
