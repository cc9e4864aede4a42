import ContractKit.Proofs.Attribute.Grammar
import Mathlib.Data.List.TakeWhile

/-!
# `Proofs/Attribute/Words.lean`: cutting a text into words

A text is cut into some words exactly if it consists of them, in order, with blanks between them and
none that the character after it would prolong (`Cut`). What prolongs a word depends on its kind
(`Ends`). In the grammar a name or a number is always followed by a blank, a mark or the end, which
prolong neither (`Stops`), so the longest word at a place is the one that the grammar has there.
-/

set_option autoImplicit false

namespace ContractKit.Attribute

/-! ## Kinds of characters -/

section Characters

variable {c : Char}

/-- The characters of ASCII that can be seen are no blanks. -/
theorem isBlank_eq_false (hlow : 32 < c.toNat) (hhigh : c.toNat < 127) :
    Text.isBlank c = false := by
  simp only [Text.isBlank, Text.blankRanges, List.any_cons, List.any_nil, Bool.or_false,
    Bool.or_eq_false_iff, Bool.and_eq_false_iff, decide_eq_false_iff_not]
  omega

theorem isDigit_iff : c.isDigit = true ↔ 48 ≤ c.toNat ∧ c.toNat ≤ 57 :=
  Char.isDigit_iff_toNat

theorem isUpper_iff : c.isUpper = true ↔ 65 ≤ c.toNat ∧ c.toNat ≤ 90 := decide_eq_true_iff

theorem isLower_iff : c.isLower = true ↔ 97 ≤ c.toNat ∧ c.toNat ≤ 122 := by
  show (decide (97 ≤ c.toNat) && decide (c.toNat ≤ 122)) = true ↔ _
  rw [Bool.and_eq_true, decide_eq_true_iff, decide_eq_true_iff]

theorem isAlpha_iff : c.isAlpha = true ↔ c.isUpper = true ∨ c.isLower = true :=
  Bool.or_eq_true_iff

theorem isAlphanum_iff : c.isAlphanum = true ↔ c.isAlpha = true ∨ c.isDigit = true :=
  Bool.or_eq_true_iff

theorem isNameStart_iff : isNameStart c = true ↔
    65 ≤ c.toNat ∧ c.toNat ≤ 90 ∨ c.toNat = 95 ∨ 97 ≤ c.toNat ∧ c.toNat ≤ 122 := by
  rw [isNameStart, Bool.or_eq_true, isAlpha_iff, isUpper_iff, isLower_iff, decide_eq_true_iff,
    ← Char.toNat_inj]
  show _ ∨ c.toNat = 95 ↔ _
  omega

theorem isNameRest_iff : isNameRest c = true ↔ isNameStart c = true ∨ c.isDigit = true := by
  simp only [isNameRest, isNameStart, isAlphanum_iff, Bool.or_eq_true]
  tauto

theorem isMark_iff :
    isMark c = true ↔ c.toNat = 61 ∨ c.toNat = 44 ∨ c.toNat = 40 ∨ c.toNat = 41 := by
  simp [isMark, ← Char.toNat_inj, or_assoc]

theorem isQuote_iff : isQuote c = true ↔ c.toNat = 34 ∨ c.toNat = 39 := by
  simp [isQuote, ← Char.toNat_inj]

theorem isNameRest_of_isNumberRest (h : isNumberRest c = true) : isNameRest c = true := by
  simp only [isNumberRest, isNameRest, isAlphanum_iff, Bool.or_eq_true] at h ⊢
  tauto

theorem isNameRest_eq_false_of_isBlank (h : Text.isBlank c = true) : isNameRest c = false := by
  by_contra hc
  have hrest := isNameRest_iff.mp (Bool.of_not_eq_false hc)
  rw [isNameStart_iff, isDigit_iff] at hrest
  rw [isBlank_eq_false (by omega) (by omega)] at h
  cases h

theorem isNameRest_eq_false_of_isMark (h : isMark c = true) : isNameRest c = false := by
  by_contra hc
  have hrest := isNameRest_iff.mp (Bool.of_not_eq_false hc)
  rw [isNameStart_iff, isDigit_iff] at hrest
  rw [isMark_iff] at h
  omega

theorem isBlank_eq_false_of_isMark (h : isMark c = true) : Text.isBlank c = false := by
  rw [isMark_iff] at h
  exact isBlank_eq_false (by omega) (by omega)

end Characters

/-! ## The characters of a word -/

/-- The characters that a word other than a mark is written with. -/
inductive Spelled : Lexeme → List Char → Prop
  | name {cs : List Char} (h : IsName cs) : Spelled (.name (String.ofList cs)) cs
  | number {cs : List Char} (h : IsNumber cs) : Spelled (.number cs) cs
  | quoted {quote : Char} {content : List Char} (hquote : isQuote quote = true)
      (hinside : Inside (· ≠ '\n') quote content) :
      Spelled (.quoted content) (quote :: (content ++ [quote]))

/-- No character at the front prolongs a name or a number. -/
def Stops (cs : List Char) : Prop := ∀ c ∈ cs.head?, isNameRest c = false

theorem stops_nil : Stops [] := nofun

theorem stops_mark {c : Char} {cs : List Char} (hc : isMark c = true) : Stops (c :: cs) := by
  intro d hd
  cases hd
  exact isNameRest_eq_false_of_isMark hc

theorem Blank.stops {blanks cs : List Char} (hblanks : Blank blanks) (hcs : Stops cs) :
    Stops (blanks ++ cs) := by
  cases blanks with
  | nil => exact hcs
  | cons b blanks =>
    intro d hd
    cases hd
    exact isNameRest_eq_false_of_isBlank (hblanks b (by simp))

/-- The character at the front does not prolong a word. -/
def Ends : Lexeme → List Char → Prop
  | .name _, cs => Stops cs
  | .number _, cs => ∀ c ∈ cs.head?, isNumberRest c = false
  | .quoted _, _ | .mark _, _ => True

theorem Stops.ends {cs : List Char} (h : Stops cs) (lexeme : Lexeme) : Ends lexeme cs := by
  cases lexeme with
  | name => exact h
  | number =>
    intro c hc
    by_contra hrest
    have := isNameRest_of_isNumberRest (Bool.of_not_eq_false hrest)
    rw [h c hc] at this
    cases this
  | quoted => trivial
  | mark => trivial

theorem takeWhile_run {p : Char → Bool} {run cs : List Char} (hrun : ∀ c ∈ run, p c = true)
    (hcs : ∀ c ∈ cs.head?, p c = false) : (run ++ cs).takeWhile p = run := by
  rw [List.takeWhile_append_of_pos hrun]
  cases cs with
  | nil => simp
  | cons c cs => simp [hcs c rfl]

theorem head?_dropWhile (p : Char → Bool) (cs : List Char) :
    ∀ c ∈ (cs.dropWhile p).head?, p c = false := by
  intro c hc
  have h := List.head?_dropWhile_not p cs
  rw [hc] at h
  exact h

section Quotes

variable {quote c : Char} {cs : List Char}

theorem closing?_quote : closing? quote (quote :: cs) = some 0 := by
  cases cs <;> simp [closing?]

theorem closing?_plain (hquote : c ≠ quote) (hslash : c ≠ '\\') :
    closing? quote (c :: cs) = (closing? quote cs).map (· + 1) := by
  cases cs <;> simp [closing?, hquote, hslash]

theorem closing?_escape (hquote : quote ≠ '\\') (hc : c ≠ '\n') :
    closing? quote ('\\' :: c :: cs) = (closing? quote cs).map (· + 2) := by
  simp [closing?, hquote.symm, hc]

/-- A literal is closed where the grammar closes it. -/
theorem closing?_of_inside {content : List Char} (hquote : quote ≠ '\\') (rest : List Char)
    (h : Inside (· ≠ '\n') quote content) :
    closing? quote (content ++ quote :: rest) = some content.length := by
  induction h with
  | nil => exact closing?_quote
  | plain hc hslash _ ih => simp [closing?_plain hc hslash, ih]
  | escape hc _ ih => simp [closing?_escape hquote hc, ih]

theorem inside_of_closing? {n : Nat} (h : closing? quote cs = some n) :
    ∃ content rest, cs = content ++ quote :: rest ∧ content.length = n ∧
      Inside (· ≠ '\n') quote content := by
  fun_induction closing? quote cs generalizing n with
  | case1 => cases h
  | case2 =>
    cases h
    exact ⟨[], [], rfl, rfl, .nil⟩
  | case3 => cases h
  | case4 d cs =>
    cases h
    exact ⟨[], d :: cs, rfl, rfl, .nil⟩
  | case5 => cases h
  | case6 d cs hd _ ih =>
    obtain ⟨m, hm, hn⟩ := Option.map_eq_some_iff.mp h
    obtain ⟨content, rest, rfl, hlength, hinside⟩ := ih hm
    exact ⟨'\\' :: d :: content, rest, rfl, by simp [hlength, ← hn], .escape hd hinside⟩
  | case7 c d cs hquote hslash ih =>
    obtain ⟨m, hm, hn⟩ := Option.map_eq_some_iff.mp h
    obtain ⟨content, rest, hcs, hlength, hinside⟩ := ih hm
    exact ⟨c :: content, rest, by simp [hcs], by simp [hlength, ← hn],
      .plain hquote hslash hinside⟩

end Quotes

/-! ## The word at the front -/

section Front

variable {c : Char} {cs rest w : List Char} {lexeme : Lexeme} {n : Nat}

/-- A word has a first character, which is no blank. -/
theorem Spelled.head (h : Spelled lexeme w) :
    ∃ c rest, w = c :: rest ∧ Text.isBlank c = false := by
  cases h with
  | name h =>
    match w, h with
    | c :: rest, h =>
      have hc := isNameStart_iff.mp h.1
      exact ⟨c, rest, rfl, isBlank_eq_false (by omega) (by omega)⟩
  | number h =>
    match w, h with
    | c :: rest, h =>
      have hc := isDigit_iff.mp h.1
      exact ⟨c, rest, rfl, isBlank_eq_false (by omega) (by omega)⟩
  | @quoted quote _ hquote _ =>
    have hc := isQuote_iff.mp hquote
    exact ⟨quote, _, rfl, isBlank_eq_false (by omega) (by omega)⟩

theorem lexeme?_name (hc : isNameStart c = true) : lexeme? c cs = some
    (.name (String.ofList (c :: cs.takeWhile isNameRest)), (cs.takeWhile isNameRest).length) := by
  have hmark : isMark c = false := by
    rw [← Bool.not_eq_true, isMark_iff]
    rw [isNameStart_iff] at hc
    omega
  simp [lexeme?, hmark, hc]

theorem lexeme?_number (hc : c.isDigit = true) : lexeme? c cs =
    some (.number (c :: cs.takeWhile isNumberRest), (cs.takeWhile isNumberRest).length) := by
  have hothers : isMark c = false ∧ isNameStart c = false := by
    rw [← Bool.not_eq_true, ← Bool.not_eq_true, isMark_iff, isNameStart_iff]
    rw [isDigit_iff] at hc
    omega
  simp [lexeme?, hothers, hc]

theorem lexeme?_quoted (hc : isQuote c = true) : lexeme? c cs =
    (closing? c cs).map fun n => (.quoted (cs.take n), n + 1) := by
  have hothers : isMark c = false ∧ isNameStart c = false ∧ c.isDigit = false := by
    rw [← Bool.not_eq_true, ← Bool.not_eq_true, ← Bool.not_eq_true, isMark_iff, isNameStart_iff,
      isDigit_iff]
    rw [isQuote_iff] at hc
    omega
  simp [lexeme?, hothers, hc]

theorem lexeme?_mark (hc : isMark c = true) : lexeme? c cs = some (.mark c, 0) := by
  simp [lexeme?, hc]

/-- The word that the grammar has at the front is the one that is found there. -/
theorem lexeme?_of_spelled (h : Spelled lexeme (c :: rest)) (hcs : Ends lexeme cs) :
    lexeme? c (rest ++ cs) = some (lexeme, rest.length) := by
  cases h with
  | name h =>
    rw [lexeme?_name h.1, takeWhile_run h.2 hcs]
  | number h =>
    rw [lexeme?_number h.1, takeWhile_run h.2 hcs]
  | quoted hquote hinside =>
    have hslash : c ≠ '\\' := by
      intro h
      subst h
      cases hquote
    rw [lexeme?_quoted hquote, List.append_assoc, List.singleton_append,
      closing?_of_inside hslash _ hinside]
    simp

/-- What is found at the front is a mark or the characters of a word. -/
theorem spelled_of_lexeme? (h : lexeme? c cs = some (lexeme, n)) :
    (isMark c = true ∧ lexeme = .mark c ∧ n = 0) ∨
      ∃ rest tail, cs = rest ++ tail ∧ rest.length = n ∧ Spelled lexeme (c :: rest) ∧
        Ends lexeme tail := by
  by_cases hmark : isMark c = true
  · rw [lexeme?_mark hmark] at h
    cases h
    exact .inl ⟨hmark, rfl, rfl⟩
  refine .inr ?_
  by_cases hname : isNameStart c = true
  · rw [lexeme?_name hname] at h
    cases h
    exact ⟨_, _, List.takeWhile_append_dropWhile.symm, rfl,
      .name ⟨hname, fun _ => List.mem_takeWhile_imp⟩, head?_dropWhile _ _⟩
  by_cases hdigit : c.isDigit = true
  · rw [lexeme?_number hdigit] at h
    cases h
    exact ⟨_, _, List.takeWhile_append_dropWhile.symm, rfl,
      .number ⟨hdigit, fun _ => List.mem_takeWhile_imp⟩, head?_dropWhile _ _⟩
  by_cases hquote : isQuote c = true
  · rw [lexeme?_quoted hquote] at h
    obtain ⟨m, hm, hn⟩ := Option.map_eq_some_iff.mp h
    obtain ⟨content, tail, rfl, hlength, hinside⟩ := inside_of_closing? hm
    cases hn
    refine ⟨content ++ [c], tail, by simp, by simp [hlength], ?_, trivial⟩
    rw [← hlength, List.take_left]
    exact .quoted hquote hinside
  · simp [lexeme?, hmark, hname, hdigit, hquote] at h

end Front

/-! ## The words of a text -/

/-- A text at a column consists of words with blanks between them, each of them as long as it can
be. -/
inductive Cut : Nat → List Char → List Token → Prop
  | nil {column : Nat} {blanks : List Char} (hblanks : Blank blanks) : Cut column blanks []
  | mark {column : Nat} {blanks cs : List Char} {c : Char} {ts : List Token}
      (hblanks : Blank blanks) (hc : isMark c = true)
      (hcs : Cut (column + blanks.length + 1) cs ts) :
      Cut column (blanks ++ c :: cs) (⟨.mark c, column + blanks.length⟩ :: ts)
  | word {column : Nat} {blanks w cs : List Char} {lexeme : Lexeme} {ts : List Token}
      (hblanks : Blank blanks) (hw : Spelled lexeme w) (hends : Ends lexeme cs)
      (hcs : Cut (column + blanks.length + w.length) cs ts) :
      Cut column (blanks ++ (w ++ cs)) (⟨lexeme, column + blanks.length⟩ :: ts)

section Tokens

variable {span : Span} {column : Nat} {cs : List Char} {ts : List Token}

theorem Cut.blank {c : Char} (hc : Text.isBlank c = true) (h : Cut (column + 1) cs ts) :
    Cut column (c :: cs) ts := by
  have hcons : ∀ blanks, Blank blanks → Blank (c :: blanks) := by
    intro blanks hblanks
    exact List.forall_mem_cons.mpr ⟨hc, hblanks⟩
  have hcolumn : ∀ blanks : List Char,
      column + 1 + blanks.length = column + (c :: blanks).length := by
    intro blanks
    simp only [List.length_cons]
    omega
  cases h with
  | nil hblanks => exact .nil (hcons _ hblanks)
  | mark hblanks hm hcs =>
    rw [hcolumn] at hcs ⊢
    exact .mark (hcons _ hblanks) hm hcs
  | word hblanks hw hends hcs =>
    rw [hcolumn] at hcs ⊢
    exact .word (hcons _ hblanks) hw hends hcs

theorem Cut.of_nil (h : Cut column cs []) : Blank cs := by
  cases h with
  | nil hblanks => exact hblanks

theorem Cut.of_mark {t : Token} {c : Char} (h : Cut column cs (t :: ts)) (ht : t.lexeme = .mark c) :
    ∃ blanks tail, cs = blanks ++ c :: tail ∧ Blank blanks ∧
      Cut (column + blanks.length + 1) tail ts := by
  cases h with
  | mark hblanks _ hcs =>
    cases ht
    exact ⟨_, _, rfl, hblanks, hcs⟩
  | word _ hw =>
    subst ht
    cases hw

theorem Cut.of_word {t : Token} (h : Cut column cs (t :: ts)) (ht : ∀ c k, t ≠ ⟨.mark c, k⟩) :
    ∃ blanks w tail, cs = blanks ++ (w ++ tail) ∧ Blank blanks ∧ Spelled t.lexeme w ∧
      Ends t.lexeme tail ∧ t.column = column + blanks.length ∧
      Cut (column + blanks.length + w.length) tail ts := by
  cases h with
  | mark => exact absurd rfl (ht _ _)
  | word hblanks hw hends hcs => exact ⟨_, _, _, rfl, hblanks, hw, hends, rfl, hcs⟩

theorem Cut.of_name {text : String} {k : Nat} (h : Cut column cs (⟨.name text, k⟩ :: ts)) :
    ∃ blanks name tail, cs = blanks ++ (name ++ tail) ∧ Blank blanks ∧ IsName name ∧
      text = String.ofList name ∧ k = column + blanks.length ∧
      Cut (column + blanks.length + name.length) tail ts := by
  obtain ⟨blanks, name, tail, hcs, hblanks, hname, -, hk, htail⟩ := h.of_word nofun
  cases hname with
  | name hname => exact ⟨blanks, name, tail, hcs, hblanks, hname, rfl, hk, htail⟩

theorem Cut.moved {k : Nat} (h : Cut column cs ts) (hk : k = column) : Cut k cs ts := hk ▸ h

theorem cut_of_tokensFrom (h : tokensFrom span column cs = .ok ts) : Cut column cs ts := by
  fun_induction tokensFrom span column cs generalizing ts with
  | case1 =>
    cases h
    exact .nil nofun
  | case2 column c cs hc ih => exact .blank hc (ih h)
  | case3 column c cs _ lexeme n hword ih =>
    cases hrest : tokensFrom span (column + 1 + n) (cs.drop n) with
    | error f =>
      rw [hrest] at h
      cases h
    | ok rest =>
      rw [hrest] at h
      cases h
      have hcut := ih hrest
      cases spelled_of_lexeme? hword with
      | inl h =>
        obtain ⟨hc, rfl, rfl⟩ := h
        exact @Cut.mark column [] cs c rest nofun hc hcut
      | inr h =>
        obtain ⟨w, tail, rfl, rfl, hw, hends⟩ := h
        rw [List.drop_left, Nat.add_assoc, Nat.add_comm 1] at hcut
        exact @Cut.word column [] (c :: w) tail lexeme rest nofun hw hends hcut
  | case4 => cases h

theorem tokensFrom_blank {blanks : List Char} (hblanks : Blank blanks)
    (h : tokensFrom span (column + blanks.length) cs = .ok ts) :
    tokensFrom span column (blanks ++ cs) = .ok ts := by
  induction blanks generalizing column with
  | nil => exact h
  | cons b blanks ih =>
    obtain ⟨hb, hblanks⟩ := List.forall_mem_cons.mp hblanks
    rw [List.length_cons, Nat.add_comm _ 1, ← Nat.add_assoc] at h
    rw [List.cons_append, tokensFrom, if_pos hb]
    exact ih hblanks h

theorem tokensFrom_mark {c : Char} (hc : isMark c = true)
    (h : tokensFrom span (column + 1) cs = .ok ts) :
    tokensFrom span column (c :: cs) = .ok (⟨.mark c, column⟩ :: ts) := by
  rw [tokensFrom, if_neg (by simp [isBlank_eq_false_of_isMark hc]), lexeme?_mark hc]
  dsimp only
  rw [Nat.add_zero, List.drop_zero, h]
  rfl

theorem tokensFrom_word {w : List Char} {lexeme : Lexeme} (hw : Spelled lexeme w)
    (hcs : Ends lexeme cs) (h : tokensFrom span (column + w.length) cs = .ok ts) :
    tokensFrom span column (w ++ cs) = .ok (⟨lexeme, column⟩ :: ts) := by
  obtain ⟨c, rest, rfl, hc⟩ := hw.head
  rw [List.length_cons, Nat.add_comm _ 1, ← Nat.add_assoc] at h
  rw [List.cons_append, tokensFrom, if_neg (by simp [hc]), lexeme?_of_spelled hw hcs]
  dsimp only
  rw [List.drop_left, h]
  rfl

theorem tokensFrom_nil : tokensFrom span column [] = .ok [] := by rw [tokensFrom]

theorem tokensFrom_of_cut (h : Cut column cs ts) : tokensFrom span column cs = .ok ts := by
  induction h with
  | @nil _ blanks hblanks =>
    rw [← List.append_nil blanks]
    exact tokensFrom_blank hblanks tokensFrom_nil
  | mark hblanks hc _ ih => exact tokensFrom_blank hblanks (tokensFrom_mark hc ih)
  | word hblanks hw hends _ ih => exact tokensFrom_blank hblanks (tokensFrom_word hw hends ih)

end Tokens

end ContractKit.Attribute
