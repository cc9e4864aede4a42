import ContractKit.Proofs.Attribute.Words
import Mathlib.Data.Nat.Digits.Lemmas

/-!
# `Proofs/Attribute/Parse.lean`: `parse` reads the accepted dialect

Both directions follow the reader. What `args`, `item` and `items` read off the words of a text is
what the grammar has there (`listed_of_args`, `reads_of_item`, `listed_of_items`). What the grammar
has is cut into words and read (`args_of_listed`, `item_of_reads`, `items_of_listed`); as the whole
text is cut first, each of these starts from the words of the characters behind it.

The dialect that is read is not the documented one (`parse_bare_value`), but it reads what is
documented (`parse_of_documented`), long numbers and joined lines apart.
-/

set_option autoImplicit false

namespace ContractKit.Attribute

/-! ## Literals -/

section Literals

variable {chars : Text.CharNames} {w cs : List Char} {lexeme : Lexeme} {v : Value}

theorem digitsValue_figures (cs : List Char) :
    Text.digitsValue 10 (cs.filter (· != '_')) = Nat.ofDigits 10 (figures cs).reverse := by
  rw [Text.digitsValue, Nat.ofDigits_eq_foldr, List.foldr_reverse, figures, List.foldl_map]
  simp only [Nat.cast_id, Nat.add_comm]

theorem numberOf_eq_ok_iff : numberOf cs = .ok v ↔
    (figures cs).length ≤ maxDigits ∧ v = .int (Nat.ofDigits 10 (figures cs).reverse : Nat) := by
  rw [numberOf, digitsValue_figures, figures, List.length_map]
  split
  · next h => simp [Nat.not_le.mpr h]
  · next h => simp [Nat.not_lt.mp h, eq_comm]

theorem literal_quoted : literal chars (.quoted cs) = .ok v ↔
    ∃ codes, Text.unescape? chars cs = some codes ∧ v = textOf codes := by
  rw [literal]
  split
  · next codes h => simp [h, eq_comm]
  · next h => simp [h]

theorem ofList_eq_iff {s : String} : String.ofList cs = s ↔ cs = s.toList := by
  rw [← String.toList_inj, String.toList_ofList]

theorem literal_name (text : String) : literal chars (.name text) = .ok (
    if text = "true" then .bool true else if text = "false" then .bool false else .text text) := by
  unfold literal
  split <;> simp_all

theorem argument_of_literal (hw : Spelled lexeme w) (h : literal chars lexeme = .ok v) :
    Argument (.accepted chars) w v := by
  cases hw with
  | name hname =>
    rw [literal_name] at h
    cases h
    simp only [ofList_eq_iff]
    split
    · next htrue => exact htrue ▸ .literal .true
    · split
      · next hfalse => exact hfalse ▸ .literal .false
      · next htrue hfalse => exact .bare hname htrue hfalse
  | number hnumber =>
    obtain ⟨hdigits, rfl⟩ := numberOf_eq_ok_iff.mp h
    exact .literal (.number hnumber hdigits)
  | quoted hquote hinside =>
    obtain ⟨codes, hcodes, rfl⟩ := literal_quoted.mp h
    exact .literal (.quoted hquote hinside hcodes)

theorem literal_of_argument (h : Argument (.accepted chars) w v) :
    ∃ lexeme, Spelled lexeme w ∧ literal chars lexeme = .ok v := by
  cases h with
  | literal h =>
    cases h with
    | quoted hquote hinside hcodes =>
      exact ⟨_, .quoted hquote hinside, literal_quoted.mpr ⟨_, hcodes, rfl⟩⟩
    | number hnumber hdigits =>
      exact ⟨_, .number hnumber, numberOf_eq_ok_iff.mpr ⟨hdigits, rfl⟩⟩
    | true => exact ⟨_, .name ⟨rfl, List.all_eq_true.mp rfl⟩, rfl⟩
    | false => exact ⟨_, .name ⟨rfl, List.all_eq_true.mp rfl⟩, rfl⟩
  | bare hname htrue hfalse =>
    exact ⟨_, .name hname, by simp only [literal_name, ofList_eq_iff, htrue, hfalse, if_false]⟩

theorem assigned_iff : Assigned (.accepted chars) w v ↔ Argument (.accepted chars) w v := by
  constructor
  · intro h
    cases h with
    | inl h => exact .literal h
    | inr h => exact h.2
  · exact fun h => .inr ⟨trivial, h⟩

end Literals

/-! ## Arguments -/

section Arguments

variable {span : Span} {source : Source} {column : Nat} {cs inner tail : List Char}
  {ts rest : List Token} {vs : List Value}

theorem args_close : args source (⟨.mark ')', column⟩ :: ts) = .ok ([], ts) := by
  simp [args]

theorem args_last {lexeme : Lexeme} {w : List Char} {v : Value} {k : Nat}
    (hw : Spelled lexeme w) (hv : literal source.chars lexeme = .ok v) :
    args source (⟨lexeme, column⟩ :: ⟨.mark ')', k⟩ :: ts) = .ok ([v], ts) := by
  cases hw <;> simp [args, hv]

theorem args_more {lexeme : Lexeme} {w : List Char} {v : Value} {k : Nat}
    (hw : Spelled lexeme w) (hv : literal source.chars lexeme = .ok v)
    (hvs : args source ts = .ok (vs, rest)) :
    args source (⟨lexeme, column⟩ :: ⟨.mark ',', k⟩ :: ts) = .ok (v :: vs, rest) := by
  cases hw <;> simp [args, hv, hvs]

/-- The arguments that are read stand before a closing parenthesis. -/
theorem listed_of_args (hcut : Cut column cs ts) (h : args source ts = .ok (vs, rest)) :
    ∃ inner tail, cs = inner ++ ')' :: tail ∧
      Listed (fun _ => Argument (.accepted source.chars)) column inner vs ∧
      Cut (column + inner.length + 1) tail rest := by
  fun_induction args source ts generalizing column cs vs rest with
  | case1 => cases h
  | case2 k rest =>
    cases h
    obtain ⟨blanks, tail, rfl, hblanks, htail⟩ := hcut.of_mark rfl
    exact ⟨blanks, tail, rfl, .nil hblanks, htail⟩
  | case3 => cases h
  | case4 => cases h
  | case5 => cases h
  | case6 t ht v hv separator ts hclose =>
    cases h
    obtain ⟨before, w, tail, rfl, hbefore, hw, -, -, htail⟩ := hcut.of_word ht
    obtain ⟨after, tail, rfl, hafter, htail⟩ := htail.of_mark hclose
    refine ⟨before ++ (w ++ after), tail, by simp,
      .one hbefore (argument_of_literal hw hv) hafter, ?_⟩
    exact htail.moved (by simp; omega)
  | case7 => cases h
  | case8 t ht v hv separator ts _ hcomma ws rest' hws ih =>
    cases h
    obtain ⟨before, w, tail, rfl, hbefore, hw, -, -, htail⟩ := hcut.of_word ht
    obtain ⟨after, tail, rfl, hafter, htail⟩ := htail.of_mark hcomma
    obtain ⟨inner, tail, rfl, hinner, htail⟩ := ih htail hws
    refine ⟨before ++ (w ++ (after ++ ',' :: inner)), tail, by simp,
      .cons hbefore (argument_of_literal hw hv) hafter hinner, ?_⟩
    exact htail.moved (by simp; omega)
  | case9 => cases h

/-- The arguments before a closing parenthesis are read. -/
theorem args_of_listed (h : Listed (fun _ => Argument (.accepted source.chars)) column inner vs)
    (htail : tokensFrom span (column + inner.length + 1) tail = .ok rest) :
    ∃ ts, tokensFrom span column (inner ++ ')' :: tail) = .ok ts ∧
      args source ts = .ok (vs, rest) := by
  induction h with
  | nil hblanks => exact ⟨_, tokensFrom_blank hblanks (tokensFrom_mark rfl htail), args_close⟩
  | @one column before word after v hbefore hword hafter =>
    obtain ⟨lexeme, hw, hv⟩ := literal_of_argument hword
    simp only [List.length_append, ← Nat.add_assoc, List.append_assoc] at htail ⊢
    exact ⟨_, tokensFrom_blank hbefore (tokensFrom_word hw ((hafter.stops (stops_mark rfl)).ends _)
      (tokensFrom_blank hafter (tokensFrom_mark rfl htail))), args_last hw hv⟩
  | @cons column before word after inner v vs hbefore hword hafter _ ih =>
    obtain ⟨lexeme, hw, hv⟩ := literal_of_argument hword
    simp only [List.length_append, List.length_cons, ← Nat.add_assoc, List.append_assoc,
      List.cons_append] at htail ⊢
    obtain ⟨ts, hts, hvs⟩ := ih (by rw [← htail]; congr 1; omega)
    exact ⟨_, tokensFrom_blank hbefore (tokensFrom_word hw ((hafter.stops (stops_mark rfl)).ends _)
      (tokensFrom_blank hafter (tokensFrom_mark rfl hts))), args_more hw hv hvs⟩

end Arguments

/-! ## Items -/

section Items

variable {chars : Text.CharNames} {span : Span} {stop column k : Nat} {cs word tail : List Char}
  {ts rest : List Token}
  {a : Attribute} {name : String}

theorem item_flag (hrest : ∀ t ∈ rest.head?, t.lexeme = .mark ',') :
    item ⟨span, stop, chars⟩ (⟨.name name, column⟩ :: rest) =
      .ok (⟨name, .flag, (span.atAttribute name).atColumn column⟩, rest) := by
  match rest, hrest with
  | [], _ => rfl
  | ⟨lexeme, k⟩ :: rest, hrest =>
    have hcomma : lexeme = .mark ',' := hrest _ rfl
    rw [hcomma]
    rfl

theorem item_value {lexeme : Lexeme} {w : List Char} {v : Value} {k' : Nat}
    (hw : Spelled lexeme w) (hv : literal chars lexeme = .ok v) :
    item ⟨span, stop, chars⟩ (⟨.name name, column⟩ :: ⟨.mark '=', k⟩ :: ⟨lexeme, k'⟩ :: rest) =
      .ok (⟨name, .value v, (span.atAttribute name).atColumn column⟩, rest) := by
  cases hw <;> simp [item, hv, Source.itemSpan]

theorem item_list {vs : List Value} (hvs : args ⟨span, stop, chars⟩ ts = .ok (vs, rest)) :
    item ⟨span, stop, chars⟩ (⟨.name name, column⟩ :: ⟨.mark '(', k⟩ :: ts) =
      .ok (⟨name, .list vs, (span.atAttribute name).atColumn column⟩, rest) := by
  simp [item, hvs, Source.itemSpan]

/-- An item before a comma or the end is read. -/
theorem item_of_reads (h : Item (.accepted chars) span column word a) (hstops : Stops tail)
    (htail : tokensFrom span (column + word.length) tail = .ok rest)
    (hrest : ∀ t ∈ rest.head?, t.lexeme = .mark ',') :
    ∃ ts, tokensFrom span column (word ++ tail) = .ok ts ∧
      item ⟨span, stop, chars⟩ ts = .ok (a, rest) := by
  cases h with
  | flag hname => exact ⟨_, tokensFrom_word (.name hname) hstops htail, item_flag hrest⟩
  | value hname hbefore hafter hword =>
    obtain ⟨lexeme, hw, hv⟩ := literal_of_argument (assigned_iff.mp hword)
    simp only [List.length_append, List.length_cons, ← Nat.add_assoc, List.append_assoc,
      List.cons_append] at htail ⊢
    exact ⟨_, tokensFrom_word (.name hname) (hbefore.stops (stops_mark rfl))
      (tokensFrom_blank hbefore (tokensFrom_mark rfl (tokensFrom_blank hafter
        (tokensFrom_word hw (hstops.ends _) (by rw [← htail]; congr 1; omega))))), item_value hw hv⟩
  | list hname hbefore hinner =>
    simp only [List.length_append, List.length_cons, List.length_nil, Nat.zero_add, ← Nat.add_assoc,
      List.append_assoc, List.cons_append, List.nil_append] at htail ⊢
    obtain ⟨ts, hts, hvs⟩ := @args_of_listed span ⟨span, stop, chars⟩ _ _ _ _ _ hinner
      (by rw [← htail]; congr 1; omega)
    exact ⟨_, tokensFrom_word (.name hname) (hbefore.stops (stops_mark rfl))
      (tokensFrom_blank hbefore (tokensFrom_mark rfl hts)), item_list hvs⟩

theorem items_last (h : item ⟨span, stop, chars⟩ ts = .ok (a, [])) :
    items ⟨span, stop, chars⟩ ts = .ok [a] := by
  cases ts with
  | nil => cases h
  | cons t ts =>
    rw [items]
    split <;> simp_all

theorem items_more {attrs : List Attribute}
    (h : item ⟨span, stop, chars⟩ ts = .ok (a, ⟨.mark ',', k⟩ :: rest))
    (hrest : items ⟨span, stop, chars⟩ rest = .ok attrs) :
    items ⟨span, stop, chars⟩ ts = .ok (a :: attrs) := by
  cases ts with
  | nil => cases h
  | cons t ts =>
    rw [items]
    split <;> simp_all [Except.map]

/-- Every list of items is read. -/
theorem items_of_listed {attrs : List Attribute}
    (h : Listed (Item (.accepted chars) span) column cs attrs) :
    ∃ ts, tokensFrom span column cs = .ok ts ∧ items ⟨span, stop, chars⟩ ts = .ok attrs := by
  induction h with
  | nil hblanks => exact ⟨[], tokensFrom_of_cut (.nil hblanks), by rw [items]⟩
  | @one _ _ _ after _ hbefore hword hafter =>
    obtain ⟨ts, hts, ha⟩ := item_of_reads hword (hafter.stops stops_nil)
      (tokensFrom_blank hafter tokensFrom_nil) (by simp)
    rw [List.append_nil] at hts
    exact ⟨ts, tokensFrom_blank hbefore hts, items_last ha⟩
  | cons hbefore hword hafter _ ih =>
    obtain ⟨more, hmore, hattrs⟩ := ih
    obtain ⟨ts, hts, ha⟩ := item_of_reads hword (hafter.stops (stops_mark rfl))
      (tokensFrom_blank hafter (@tokensFrom_mark _ _ _ _ ',' rfl hmore)) (by simp)
    exact ⟨ts, tokensFrom_blank hbefore hts, items_more ha hattrs⟩

/-- The three ways to read an item. -/
theorem item_cases (h : item ⟨span, stop, chars⟩ ts = .ok (a, rest)) : ∃ name k,
    (ts = ⟨.name name, k⟩ :: rest ∧
      a = ⟨name, .flag, (span.atAttribute name).atColumn k⟩) ∨
    (∃ k' t v, ts = ⟨.name name, k⟩ :: ⟨.mark '=', k'⟩ :: t :: rest ∧
      (∀ c k, t ≠ ⟨.mark c, k⟩) ∧ literal chars t.lexeme = .ok v ∧
      a = ⟨name, .value v, (span.atAttribute name).atColumn k⟩) ∨
    (∃ k' inner vs, ts = ⟨.name name, k⟩ :: ⟨.mark '(', k'⟩ :: inner ∧
      args ⟨span, stop, chars⟩ inner = .ok (vs, rest) ∧
      a = ⟨name, .list vs, (span.atAttribute name).atColumn k⟩) := by
  unfold item at h
  split at h
  · cases h
  · next name k ts =>
    refine ⟨name, k, ?_⟩
    dsimp only at h
    split at h
    · cases h
    · next k' t ts =>
      split at h
      · cases h
      · next hmark =>
        -- a mark behind the equals sign was refused before, so this word is none
        cases hv : literal chars t.lexeme <;> rw [hv] at h <;> cases h
        refine .inr (.inl ⟨k', t, _, rfl, ?_, hv, rfl⟩)
        intro c k ht
        subst ht
        exact hmark c rfl
    · next k' ts =>
      cases hvs : args ⟨span, stop, chars⟩ ts <;> rw [hvs] at h <;> cases h
      exact .inr (.inr ⟨k', ts, _, rfl, hvs, rfl⟩)
    · cases h
      exact .inl ⟨rfl, rfl⟩
  · cases h

/-- What is read as an item is one, at its column, with blanks before it. -/
theorem reads_of_item (hcut : Cut column cs ts) (h : item ⟨span, stop, chars⟩ ts = .ok (a, rest)) :
    ∃ before word tail, cs = before ++ (word ++ tail) ∧ Blank before ∧
      Item (.accepted chars) span (column + before.length) word a ∧
      Cut (column + before.length + word.length) tail rest := by
  obtain ⟨text, k, hflag | hvalue | hlist⟩ := item_cases h
  · obtain ⟨rfl, rfl⟩ := hflag
    obtain ⟨before, name, tail, rfl, hbefore, hname, rfl, rfl, htail⟩ := hcut.of_name
    exact ⟨before, name, tail, rfl, hbefore, .flag hname, htail⟩
  · obtain ⟨_, t, v, rfl, ht, hv, rfl⟩ := hvalue
    obtain ⟨before, name, _, rfl, hbefore, hname, rfl, rfl, htail⟩ := hcut.of_name
    obtain ⟨left, _, rfl, hleft, htail⟩ := htail.of_mark rfl
    obtain ⟨right, w, tail, rfl, hright, hw, -, -, htail⟩ := htail.of_word ht
    refine ⟨before, name ++ (left ++ '=' :: (right ++ w)), tail, by simp, hbefore,
      .value hname hleft hright (assigned_iff.mpr (argument_of_literal hw hv)), ?_⟩
    exact htail.moved (by simp; omega)
  · obtain ⟨_, inner, vs, rfl, hvs, rfl⟩ := hlist
    obtain ⟨before, name, _, rfl, hbefore, hname, rfl, rfl, htail⟩ := hcut.of_name
    obtain ⟨left, _, rfl, hleft, htail⟩ := htail.of_mark rfl
    obtain ⟨inside, tail, rfl, hinner, htail⟩ := listed_of_args htail hvs
    refine ⟨before, name ++ (left ++ '(' :: (inside ++ [')'])), tail, by simp, hbefore,
      .list hname hleft hinner, ?_⟩
    exact htail.moved (by simp; omega)

theorem listed_of_items {source : Source} {attrs : List Attribute} (hcut : Cut column cs ts)
    (h : items source ts = .ok attrs) :
    Listed (Item (.accepted source.chars) source.span) column cs attrs := by
  fun_induction items source ts generalizing column cs attrs with
  | case1 =>
    cases h
    exact .nil hcut.of_nil
  | case2 => cases h
  | case3 t ts a ha =>
    cases h
    obtain ⟨before, word, tail, rfl, hbefore, hword, htail⟩ := reads_of_item hcut ha
    exact .one hbefore hword htail.of_nil
  | case4 t ts a separator rest ha hcomma ih =>
    obtain ⟨before, word, tail, rfl, hbefore, hword, htail⟩ := reads_of_item hcut ha
    obtain ⟨after, tail, rfl, hafter, htail⟩ := htail.of_mark hcomma
    cases hmore : items source rest with
    | error f => rw [hmore] at h; cases h
    | ok more =>
      rw [hmore] at h
      cases h
      exact .cons hbefore hword hafter (ih htail hmore)
  | case5 => cases h

end Items

section Texts

variable {chars : Text.CharNames} {span : Span} {text : String} {attrs : List Attribute}

theorem reads_of_parse (h : parse chars span text = .ok attrs) :
    Reads (.accepted chars) span text attrs := by
  cases hts : tokens span text with
  | error f =>
    rw [parse, hts] at h
    cases h
  | ok ts =>
    rw [parse, hts] at h
    exact listed_of_items (cut_of_tokensFrom hts) h

theorem parse_of_reads (h : Reads (.accepted chars) span text attrs) :
    parse chars span text = .ok attrs := by
  obtain ⟨ts, hts, hattrs⟩ := items_of_listed h
  rw [parse, tokens, hts]
  exact hattrs

end Texts

/-- `parse` accepts a text, and answers with some attributes, exactly when the text is a list of
items that stands for them: items `name`, `name = value` and `name(arguments)` with commas between
them, whose values are literals or bare words and whose arguments are so too, where no backslash
joins lines and no number has more than `maxDigits` digits. -/
theorem parse_eq_ok_iff (chars : Text.CharNames) (span : Span) (text : String) (attrs : List Attribute) :
    parse chars span text = .ok attrs ↔ Reads (.accepted chars) span text attrs :=
  ⟨reads_of_parse, parse_of_reads⟩

/-- A text that is written as documented is read as documented, unless a line feed occurs in it or
it is longer than numbers may be. -/
theorem parse_of_documented {chars : Text.CharNames} {span : Span} {text : String} {attrs : List Attribute}
    (h : Reads (.documented chars) span text attrs) (hline : '\n' ∉ text.toList)
    (hlength : text.length ≤ maxDigits) : parse chars span text = .ok attrs := by
  have hcovers : (Dialect.documented chars).Covers (.accepted chars) text.toList := by
    refine ⟨rfl, ?_, ?_, False.elim⟩
    · intro c hc _ hfeed
      exact hline (hfeed ▸ hc)
    · intro n hn _
      exact hn.trans hlength
  exact parse_of_reads (h.mono hcovers)

/-- A bare word is accepted as the value of a name, although the documented grammar has literals
there only. -/
theorem parse_bare_value :
    parse .none ⟨"Foo", none, none, none, none⟩ "a = b" = .ok
      [⟨"a", .value (.text "b"), ⟨"Foo", none, some "a", none, some 0⟩⟩] ∧
    ¬ ∃ attrs, Reads (.documented .none) ⟨"Foo", none, none, none, none⟩ "a = b" attrs := by
  have hitem : Item (.accepted .none) ⟨"Foo", none, none, none, none⟩ 0 "a = b".toList
      ⟨"a", .value (.text "b"), ⟨"Foo", none, some "a", none, some 0⟩⟩ := by
    have hspace : Blank [' '] := List.forall_mem_singleton.mpr rfl
    have ha : IsName ['a'] := ⟨rfl, List.forall_mem_nil _⟩
    have hb : Argument (.accepted .none) ['b'] (.text "b") :=
      .bare ⟨rfl, List.forall_mem_nil _⟩ (by decide) (by decide)
    exact .value ha hspace hspace (assigned_iff.mpr hb)
  have hparse : parse .none ⟨"Foo", none, none, none, none⟩ "a = b" = .ok
      [⟨"a", .value (.text "b"), ⟨"Foo", none, some "a", none, some 0⟩⟩] :=
    parse_of_reads
      (@Listed.one _ _ 0 [] _ [] _ (List.forall_mem_nil _) hitem (List.forall_mem_nil _))
  refine ⟨hparse, ?_⟩
  intro h
  obtain ⟨attrs, h⟩ := h
  -- the documented meaning would be the one that is read, whose text is in no quotes
  have hattrs := parse_of_documented h (by decide) (by decide)
  rw [hparse] at hattrs
  cases hattrs
  have hquoted := List.any_eq_true.mpr (h.quoted id (List.mem_singleton.mpr rfl) rfl)
  cases hquoted

end ContractKit.Attribute
