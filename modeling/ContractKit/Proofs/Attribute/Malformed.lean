import ContractKit.Proofs.Attribute.Parse

/-!
# `Proofs/Attribute/Malformed.lean`: texts that are no lists of attributes

A text that is not read is answered by one report, at a column of the text. There is one exception:
a literal can be written as one and still denote nothing, because of an escape or of its number of
digits, and is then answered by a fault that names no place. `Stumbles` says over the characters when
this happens: everything in front of the literal is in order, a literal is due there, and the rest of
the text is cut into words. `parse_outcome` puts the cases together.

The two directions follow the reader as those for texts that are read do. What stops it is a report
at one of the words or at the end (`Located`), or such a literal (`args_fails`, `item_fails`,
`items_fails`). The other way round the front is read up to the literal (`args_stop`, `item_stop`,
`items_stop`).
-/

set_option autoImplicit false

namespace ContractKit.Attribute

/-! ## Literals that denote nothing -/

/-- The fault of a number with too many digits. -/
def tooManyDigits (count : Nat) : Fault :=
  .raised .value
    s!"Exceeds the limit ({maxDigits} digits) for integer string conversion: value has {count} digits; use sys.set_int_max_str_digits() to increase the limit"

/-- A word that is written as a literal and denotes nothing, in front of some characters. What follows a
number matters, since digits behind it would belong to it. -/
inductive Undenoting (chars : Text.CharNames) : List Char → List Char → Fault → Prop
  | quoted {quote : Char} {content rest : List Char} (hquote : isQuote quote = true)
      (hinside : Inside (· ≠ '\n') quote content) (hcodes : Text.unescape? chars content = none) :
      Undenoting chars (quote :: (content ++ [quote])) rest .badLiteral
  | number {cs rest : List Char} (hnumber : IsNumber cs) (hends : Ends (.number cs) rest)
      (hdigits : maxDigits < (figures cs).length) :
      Undenoting chars cs rest (tooManyDigits (figures cs).length)

section Literals

variable {chars : Text.CharNames} {w rest cs : List Char} {lexeme : Lexeme} {f : Fault}

theorem numberOf_eq_error_iff : numberOf cs = .error f ↔
    maxDigits < (figures cs).length ∧ f = tooManyDigits (figures cs).length := by
  rw [numberOf, figures, List.length_map]
  split
  · next h => simp [h, tooManyDigits, eq_comm]
  · next h => simp [h]

theorem undenoting_of_literal (hw : Spelled lexeme w) (hends : Ends lexeme rest)
    (h : literal chars lexeme = .error f) : Undenoting chars w rest f := by
  cases hw with
  | name hname =>
    rw [literal_name] at h
    cases h
  | number hnumber =>
    obtain ⟨hdigits, rfl⟩ := numberOf_eq_error_iff.mp h
    exact .number hnumber hends hdigits
  | @quoted _ content hquote hinside =>
    rw [literal] at h
    split at h
    · cases h
    · next hcodes =>
      cases h
      exact .quoted hquote hinside hcodes

theorem Undenoting.literal (h : Undenoting chars w rest f) :
    ∃ lexeme, Spelled lexeme w ∧ Ends lexeme rest ∧ Attribute.literal chars lexeme = .error f := by
  cases h with
  | quoted hquote hinside hcodes =>
    exact ⟨_, .quoted hquote hinside, trivial, by rw [Attribute.literal, hcodes]⟩
  | number hnumber hends hdigits =>
    exact ⟨_, .number hnumber, hends, numberOf_eq_error_iff.mpr ⟨hdigits, rfl⟩⟩

/-- The fault of such a literal is no report. -/
theorem Undenoting.kind (h : Undenoting chars w rest f) : f.kind = .syntaxError ∨ f.kind = .value := by
  cases h with
  | quoted => exact .inl rfl
  | number => exact .inr rfl

end Literals

/-! ## Fronts -/

/-- Elements with a comma behind each of them, up to where the next one is due. It is a `Listed` that
was cut short, with the blanks behind the last comma. -/
inductive Opened {α : Type} (Element : Nat → List Char → α → Prop) : Nat → List Char → Prop
  | here {column : Nat} {blanks : List Char} (hblanks : Blank blanks) :
      Opened Element column blanks
  | more {column : Nat} {before word after rest : List Char} {a : α} (hbefore : Blank before)
      (hword : Element (column + before.length) word a) (hafter : Blank after)
      (hrest : Opened Element (column + before.length + word.length + after.length + 1) rest) :
      Opened Element column (before ++ (word ++ (after ++ ',' :: rest)))

/-- An item up to where a literal is due: behind the equals sign, or behind the bracket and the
arguments before it. -/
inductive Begun (d : Dialect) : Nat → List Char → Prop
  | value {column : Nat} {name before after : List Char} (hname : IsName name)
      (hbefore : Blank before) (hafter : Blank after) :
      Begun d column (name ++ (before ++ '=' :: after))
  | list {column : Nat} {name before inner : List Char} (hname : IsName name)
      (hbefore : Blank before)
      (hinner : Opened (fun _ => Argument d) (column + name.length + before.length + 1) inner) :
      Begun d column (name ++ (before ++ '(' :: inner))

/-- Items with commas behind them, and one more up to where a literal is due. -/
def Due (d : Dialect) (span : Span) (column : Nat) (cs : List Char) : Prop :=
  ∃ done start, cs = done ++ start ∧ Opened (Item d span) column done ∧
    Begun d (column + done.length) start

/-- Behind a front of some kind there is a literal that denotes nothing, and words from there on. -/
def StopsAfter (chars : Text.CharNames) (Front : Nat → List Char → Prop) (column : Nat) (cs : List Char)
    (f : Fault) : Prop :=
  ∃ front w rest ts, cs = front ++ (w ++ rest) ∧ Front column front ∧ Undenoting chars w rest f ∧
    Cut (column + front.length + w.length) rest ts

/-- Where a literal is due in a text, after everything before it was in order, there is one that
denotes nothing, with words behind it. -/
def Stumbles (chars : Text.CharNames) (span : Span) (text : String) (f : Fault) : Prop :=
  StopsAfter chars (Due (.accepted chars) span) 0 text.toList f

theorem StopsAfter.behind {chars : Text.CharNames} {Front Front' : Nat → List Char → Prop} {column k : Nat}
    {cs cs' : List Char} {f : Fault} (h : StopsAfter chars Front k cs f) (before : List Char)
    (hcs : cs' = before ++ cs) (hk : k = column + before.length)
    (hfront : ∀ front, Front k front → Front' column (before ++ front)) :
    StopsAfter chars Front' column cs' f := by
  obtain ⟨front, w, rest, ts, rfl, hfront', hw, hrest⟩ := h
  refine ⟨before ++ front, w, rest, ts, by simp [hcs], hfront _ hfront', hw, hrest.moved ?_⟩
  rw [hk, List.length_append]
  omega

/-! ## What stops the reader -/

/-- The fault is a report at a column of the text. -/
def Located (source : Source) (f : Fault) : Prop :=
  ∃ message, ∃ column ≤ source.stop,
    f = .derive (.single message (source.span.atColumn column))

section Fails

variable {α : Type} {chars : Text.CharNames} {source : Source} {span : Span} {column stop : Nat}
  {cs : List Char}
  {ts : List Token} {f : Fault} {message : String}

theorem Cut.column_lt {t : Token} (h : Cut column cs ts) (ht : t ∈ ts) :
    t.column < column + cs.length := by
  induction h with
  | nil => cases ht
  | mark _ _ _ ih =>
    simp only [List.length_append, List.length_cons]
    cases ht with
    | head => dsimp only; omega
    | tail _ ht => have := ih ht; omega
  | word _ hw _ _ ih =>
    obtain ⟨c, w, rfl, -⟩ := hw.head
    simp only [List.length_append, List.length_cons] at ih ⊢
    cases ht with
    | head => dsimp only; omega
    | tail _ ht => have := ih ht; omega

theorem located_at_end (h : (source.fail message none : Except Fault α) = .error f) :
    Located source f := by
  cases h
  exact ⟨message, _, le_refl _, rfl⟩

theorem located_at {t : Token} (hcut : Cut column cs ts) (hstop : column + cs.length ≤ source.stop)
    (ht : t ∈ ts) (h : (source.fail message (some t) : Except Fault α) = .error f) :
    Located source f := by
  cases h
  exact ⟨message, t.column, (hcut.column_lt ht).le.trans hstop, rfl⟩

/-- Arguments that are not read. -/
theorem args_fails (hcut : Cut column cs ts) (hstop : column + cs.length ≤ source.stop)
    (h : args source ts = .error f) :
    Located source f ∨
      StopsAfter source.chars (Opened fun _ => Argument (.accepted source.chars)) column cs f := by
  -- the reader gives up at a word or at the end, at a literal (`case4`), or behind a comma (`case7`)
  fun_induction args source ts generalizing column cs f with
  | case1 => exact .inl (located_at_end h)
  | case2 => cases h
  | case3 => exact .inl (located_at hcut hstop List.mem_cons_self h)
  | case4 t ts ht f' hv =>
    cases h
    obtain ⟨before, w, tail, rfl, hbefore, hw, hends, -, htail⟩ := hcut.of_word ht
    exact .inr ⟨before, w, tail, ts, rfl, .here hbefore, undenoting_of_literal hw hends hv, htail⟩
  | case5 => exact .inl (located_at_end h)
  | case6 => cases h
  | case7 t ht v hv separator ts _ hcomma f' hargs ih =>
    cases h
    obtain ⟨before, w, tail, rfl, hbefore, hw, -, -, htail⟩ := hcut.of_word ht
    obtain ⟨after, tail, rfl, hafter, htail⟩ := htail.of_mark hcomma
    simp only [List.length_append, List.length_cons] at hstop
    refine (ih htail (by omega) hargs).imp_right fun hmore => ?_
    refine hmore.behind (before ++ (w ++ (after ++ [',']))) (by simp) ?_ fun front hfront => ?_
    · simp only [List.length_append, List.length_cons, List.length_nil]
      omega
    · simpa using Opened.more hbefore (argument_of_literal hw hv) hafter hfront
  | case8 => cases h
  | case9 => exact .inl (located_at hcut hstop (by simp) h)

/-- An item that is not read. -/
theorem item_fails (hcut : Cut column cs ts) (hstop : column + cs.length ≤ stop)
    (h : item ⟨span, stop, chars⟩ ts = .error f) :
    Located ⟨span, stop, chars⟩ f ∨ StopsAfter chars (Due (.accepted chars) span) column cs f := by
  -- the faults of the item itself are at words; only a literal and the arguments can stumble
  unfold item at h
  split at h
  · exact .inl (located_at_end h)
  · next k rest =>
    obtain ⟨before, name, tail, rfl, hbefore, hname, rfl, rfl, htail⟩ := hcut.of_name
    dsimp only at h
    split at h
    · exact .inl (located_at_end h)
    · next k' t rest =>
      split at h
      · exact .inl (located_at hcut hstop (by simp) h)
      · -- what stands behind the equals sign is no mark, so a literal is read there
        next hmark =>
        cases hv : literal chars t.lexeme <;> rw [hv] at h <;> cases h
        obtain ⟨left, _, rfl, hleft, htail⟩ := htail.of_mark rfl
        obtain ⟨right, w, tail, rfl, hright, hw, hends, -, htail⟩ :=
          htail.of_word fun c k ht => hmark c (ht ▸ rfl)
        refine .inr ⟨before ++ (name ++ (left ++ '=' :: right)), w, tail, rest, by simp,
          ⟨before, _, rfl, .here hbefore, .value hname hleft hright⟩,
          undenoting_of_literal hw hends hv, htail.moved ?_⟩
        simp only [List.length_append, List.length_cons]
        omega
    · next k' rest =>
      -- what stops the arguments stops the item, behind its name and bracket
      cases hargs : args ⟨span, stop, chars⟩ rest <;> rw [hargs] at h <;> cases h
      obtain ⟨left, tail, rfl, hleft, htail⟩ := htail.of_mark rfl
      simp only [List.length_append, List.length_cons] at hstop
      refine (args_fails htail (by dsimp only; omega) hargs).imp_right fun hinner => ?_
      refine hinner.behind (before ++ (name ++ (left ++ ['(']))) (by simp) ?_ fun front hfront => ?_
      · simp only [List.length_append, List.length_cons, List.length_nil]
        omega
      · exact ⟨before, name ++ (left ++ '(' :: front), by simp, .here hbefore,
          .list hname hleft hfront⟩
    · cases h
  · exact .inl (located_at hcut hstop List.mem_cons_self h)

/-- Items that are not read. -/
theorem items_fails (hcut : Cut column cs ts) (hstop : column + cs.length ≤ source.stop)
    (h : items source ts = .error f) :
    Located source f ∨ StopsAfter source.chars (Due (.accepted source.chars) source.span) column cs f := by
  fun_induction items source ts generalizing column cs f with
  | case1 => cases h
  | case2 t ts f' ha =>
    cases h
    exact item_fails hcut hstop ha
  | case3 => cases h
  | case4 t ts a separator rest ha hcomma ih =>
    obtain ⟨before, word, tail, rfl, hbefore, hword, htail⟩ := reads_of_item hcut ha
    obtain ⟨after, tail, rfl, hafter, htail⟩ := htail.of_mark hcomma
    cases hmore : items source rest <;> rw [hmore] at h <;> cases h
    simp only [List.length_append, List.length_cons] at hstop
    -- what is found behind the comma lies that much further to the right here
    refine (ih htail (by omega) hmore).imp_right fun hmore => ?_
    refine hmore.behind (before ++ (word ++ (after ++ [',']))) (by simp) ?_ ?_
    · simp only [List.length_append, List.length_cons, List.length_nil]
      omega
    · rintro front ⟨done, start, rfl, hdone, hstart⟩
      refine ⟨before ++ (word ++ (after ++ ',' :: done)), start, by simp,
        .more hbefore hword hafter hdone, ?_⟩
      simp only [List.length_append, List.length_cons]
      convert hstart using 1
      omega
  | case5 t ts a separator rest ha =>
    obtain ⟨before, word, tail, rfl, -, -, htail⟩ := reads_of_item hcut ha
    simp only [List.length_append] at hstop
    exact .inl (located_at htail (by omega) List.mem_cons_self h)

/-- A text that is not cut into words. -/
theorem tokensFrom_fails (h : tokensFrom span column cs = .error f)
    (hstop : column + cs.length ≤ stop) : Located ⟨span, stop, chars⟩ f := by
  fun_induction tokensFrom span column cs generalizing f with
  | case1 => cases h
  | case2 column c cs _ ih =>
    simp only [List.length_cons] at hstop
    exact ih h (by omega)
  | case3 column c cs _ lexeme n hword ih =>
    cases hrest : tokensFrom span (column + 1 + n) (cs.drop n) <;> rw [hrest] at h <;> cases h
    refine ih hrest ?_
    have hn : n ≤ cs.length := by
      obtain ⟨-, -, rfl⟩ | ⟨rest, tail, rfl, rfl, -⟩ := spelled_of_lexeme? hword
      · omega
      · simp
    simp only [List.length_cons, List.length_drop] at hstop ⊢
    omega
  | case4 column c cs =>
    cases h
    exact ⟨_, column, by dsimp only; omega, rfl⟩

end Fails

/-! ## Reading up to a literal -/

section Stops

variable {chars : Text.CharNames} {source : Source} {span : Span} {column stop : Nat}
  {cs front w rest : List Char}
  {ts more : List Token} {a : Attribute} {f : Fault}

theorem args_undenoting {lexeme : Lexeme} (hw : Spelled lexeme w)
    (hf : literal source.chars lexeme = .error f) :
    args source (⟨lexeme, column⟩ :: ts) = .error f := by
  cases hw <;> simp [args, hf]

theorem args_more_error {lexeme : Lexeme} {v : Value} {k : Nat} (hw : Spelled lexeme w)
    (hv : literal source.chars lexeme = .ok v) (hmore : args source ts = .error f) :
    args source (⟨lexeme, column⟩ :: ⟨.mark ',', k⟩ :: ts) = .error f := by
  cases hw <;> simp [args, hv, hmore]

/-- Arguments are read up to a literal that denotes nothing. -/
theorem args_stop (hfront : Opened (fun _ => Argument (.accepted source.chars)) column front)
    (hw : Undenoting source.chars w rest f)
    (hrest : tokensFrom span (column + front.length + w.length) rest = .ok more) :
    ∃ ts, tokensFrom span column (front ++ (w ++ rest)) = .ok ts ∧ args source ts = .error f := by
  induction hfront with
  | here hblanks =>
    obtain ⟨lexeme, hspelled, hends, hf⟩ := hw.literal
    exact ⟨_, tokensFrom_blank hblanks (tokensFrom_word hspelled hends hrest),
      args_undenoting hspelled hf⟩
  | more hbefore hword hafter _ ih =>
    obtain ⟨lexeme, hspelled, hv⟩ := literal_of_argument hword
    simp only [List.length_append, List.length_cons, ← Nat.add_assoc, List.append_assoc,
      List.cons_append] at hrest ⊢
    obtain ⟨ts, hts, hf⟩ := ih (by rw [← hrest]; congr 1; omega)
    exact ⟨_, tokensFrom_blank hbefore (tokensFrom_word hspelled
      ((hafter.stops (stops_mark rfl)).ends _) (tokensFrom_blank hafter (tokensFrom_mark rfl hts))),
      args_more_error hspelled hv hf⟩

theorem item_undenoting {lexeme : Lexeme} {name : String} {k k' : Nat} (hw : Spelled lexeme w)
    (hf : literal chars lexeme = .error f) :
    item ⟨span, stop, chars⟩ (⟨.name name, column⟩ :: ⟨.mark '=', k⟩ :: ⟨lexeme, k'⟩ :: ts) =
      .error f := by
  cases hw <;> simp [item, hf]

theorem item_list_error {name : String} {k : Nat} (hf : args ⟨span, stop, chars⟩ ts = .error f) :
    item ⟨span, stop, chars⟩ (⟨.name name, column⟩ :: ⟨.mark '(', k⟩ :: ts) = .error f := by
  simp [item, hf]

/-- An item is read up to a literal that denotes nothing. -/
theorem item_stop (hfront : Begun (.accepted chars) column front) (hw : Undenoting chars w rest f)
    (hrest : tokensFrom span (column + front.length + w.length) rest = .ok more) :
    ∃ t ts, tokensFrom span column (front ++ (w ++ rest)) = .ok (t :: ts) ∧
      item ⟨span, stop, chars⟩ (t :: ts) = .error f := by
  cases hfront with
  | value hname hbefore hafter =>
    obtain ⟨lexeme, hspelled, hends, hf⟩ := hw.literal
    simp only [List.length_append, List.length_cons, ← Nat.add_assoc, List.append_assoc,
      List.cons_append] at hrest ⊢
    exact ⟨_, _, tokensFrom_word (.name hname) (hbefore.stops (stops_mark rfl))
      (tokensFrom_blank hbefore (tokensFrom_mark rfl (tokensFrom_blank hafter
        (tokensFrom_word hspelled hends (by rw [← hrest]; congr 1; omega))))),
      item_undenoting hspelled hf⟩
  | list hname hbefore hinner =>
    simp only [List.length_append, List.length_cons, ← Nat.add_assoc, List.append_assoc,
      List.cons_append] at hrest ⊢
    obtain ⟨ts, hts, hf⟩ := @args_stop ⟨span, stop, chars⟩ span _ _ _ _ _ _ hinner hw
      (by rw [← hrest]; congr 1; omega)
    exact ⟨_, _, tokensFrom_word (.name hname) (hbefore.stops (stops_mark rfl))
      (tokensFrom_blank hbefore (tokensFrom_mark rfl hts)), item_list_error hf⟩

theorem items_error {t : Token} (h : item source (t :: ts) = .error f) :
    items source (t :: ts) = .error f := by
  rw [items]
  split <;> simp_all

theorem items_more_error {k : Nat} (h : item source ts = .ok (a, ⟨.mark ',', k⟩ :: more))
    (hmore : items source more = .error f) : items source ts = .error f := by
  cases ts with
  | nil => cases h
  | cons t ts =>
    rw [items]
    split <;> simp_all [Except.map]

/-- Items are read up to a literal that denotes nothing. -/
theorem items_stop (hfront : Due (.accepted chars) span column front) (hw : Undenoting chars w rest f)
    (hrest : tokensFrom span (column + front.length + w.length) rest = .ok more) :
    ∃ ts, tokensFrom span column (front ++ (w ++ rest)) = .ok ts ∧
      items ⟨span, stop, chars⟩ ts = .error f := by
  obtain ⟨done, start, rfl, hdone, hstart⟩ := hfront
  induction hdone with
  | here hblanks =>
    simp only [List.length_append, ← Nat.add_assoc, List.append_assoc] at hrest ⊢
    obtain ⟨t, ts, hts, hf⟩ := item_stop hstart hw hrest
    exact ⟨t :: ts, tokensFrom_blank hblanks hts, items_error hf⟩
  | more hbefore hword hafter _ ih =>
    simp only [List.length_append, List.length_cons, ← Nat.add_assoc, List.append_assoc,
      List.cons_append] at hrest hstart ih ⊢
    obtain ⟨more, hmore, hf⟩ := ih (by rw [← hrest]; congr 1; omega)
      (by convert hstart using 1; omega)
    obtain ⟨ts, hts, ha⟩ := item_of_reads hword (hafter.stops (stops_mark rfl))
      (tokensFrom_blank hafter (@tokensFrom_mark _ _ _ _ ',' rfl hmore)) (by simp)
    exact ⟨ts, tokensFrom_blank hbefore hts, items_more_error ha hf⟩

end Stops

/-! ## Texts -/

section Texts

variable {chars : Text.CharNames} {span : Span} {text : String} {f : Fault}

theorem parse_fails (h : parse chars span text = .error f) :
    Located ⟨span, text.length, chars⟩ f ∨ Stumbles chars span text f := by
  have hstop : 0 + text.toList.length ≤ text.length := by
    rw [Nat.zero_add, String.length_toList]
  cases hts : tokens span text with
  | error f' =>
    rw [parse, hts] at h
    cases h
    exact .inl (tokensFrom_fails hts hstop)
  | ok ts =>
    rw [parse, hts] at h
    refine items_fails (cut_of_tokensFrom hts) ?_ h
    exact hstop

theorem parse_of_stumbles (h : Stumbles chars span text f) : parse chars span text = .error f := by
  obtain ⟨front, w, rest, ts, htext, hfront, hw, hrest⟩ := h
  obtain ⟨ts, hts, hf⟩ := items_stop hfront hw (tokensFrom_of_cut hrest)
  rw [parse, tokens, htext, hts]
  exact hf

theorem Stumbles.kind (h : Stumbles chars span text f) : f.kind = .syntaxError ∨ f.kind = .value := by
  obtain ⟨_, _, _, _, _, _, hw, _⟩ := h
  exact hw.kind

end Texts

/-- A text is read, or answered by one report at a column of it, or a literal in it denotes nothing.
The last are exactly the texts that are answered by a fault other than a report: one without a
place. -/
theorem parse_outcome (chars : Text.CharNames) (span : Span) (text : String) :
    ((∃ attrs, parse chars span text = .ok attrs) ∨
      (∃ message, ∃ column ≤ text.length,
        parse chars span text = .error (.derive (.single message (span.atColumn column)))) ∨
      ∃ f, Stumbles chars span text f) ∧
    ∀ f, Stumbles chars span text f ↔ parse chars span text = .error f ∧ f.kind ≠ .derive := by
  constructor
  · cases hparse : parse chars span text with
    | ok attrs => exact .inl ⟨attrs, rfl⟩
    | error f =>
      cases parse_fails hparse with
      | inl h =>
        obtain ⟨message, column, hcolumn, rfl⟩ := h
        exact .inr (.inl ⟨message, column, hcolumn, rfl⟩)
      | inr h => exact .inr (.inr ⟨f, h⟩)
  · intro f
    constructor
    · intro h
      refine ⟨parse_of_stumbles h, ?_⟩
      obtain h | h := h.kind <;> rw [h] <;> decide
    · rintro ⟨hparse, hkind⟩
      cases parse_fails hparse with
      | inl h =>
        obtain ⟨message, column, -, rfl⟩ := h
        exact absurd rfl hkind
      | inr h => exact h

/-- A text with an escape that is cut short is neither read nor answered by a report. -/
theorem parse_cut_escape :
    parse .none ⟨"Foo", none, none, none, none⟩ "a = \"\\x\"" = .error .badLiteral ∧
    ¬ ((∃ attrs, parse .none ⟨"Foo", none, none, none, none⟩ "a = \"\\x\"" = .ok attrs) ∨
      ∃ message place, parse .none ⟨"Foo", none, none, none, none⟩ "a = \"\\x\"" =
          .error (.derive (.single message place)) ∧
        place.item = "Foo" ∧ place.field = none ∧
        ∃ column ≤ "a = \"\\x\"".length, place.column = some column) := by
  have hspace : Blank [' '] := List.forall_mem_singleton.mpr rfl
  have hname : IsName ['a'] := ⟨rfl, List.forall_mem_nil _⟩
  have hfront : Due (.accepted .none) ⟨"Foo", none, none, none, none⟩ 0 "a = ".toList :=
    ⟨[], _, rfl, .here (List.forall_mem_nil _), .value hname hspace hspace⟩
  have hinside : Inside (· ≠ '\n') '"' ['\\', 'x'] := .escape (show 'x' ≠ '\n' by decide) .nil
  have htext : Text.unescape? .none ['\\', 'x'] = none := by
    rw [Text.unescape?]
    rfl
  have hword : Undenoting .none "\"\\x\"".toList [] .badLiteral := .quoted rfl hinside htext
  have hparse : parse .none ⟨"Foo", none, none, none, none⟩ "a = \"\\x\"" = .error .badLiteral :=
    parse_of_stumbles ⟨_, _, [], [], rfl, hfront, hword, .nil (List.forall_mem_nil _)⟩
  refine ⟨hparse, ?_⟩
  rw [hparse]
  rintro (⟨_, h⟩ | ⟨_, _, h, _⟩) <;> cases h

end ContractKit.Attribute
