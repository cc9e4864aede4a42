import ContractKit.Contract.Export

/-!
# `Proofs/Contract/ExportName.lean`: which exports have one name

The name of an export is put together from what it is for (`ExportKey`), with a dot between a contract
and the name of a receive function, and words in front of everything else. Nothing keeps the dot and the
words out of the parts. So some names have two readings: a dot can be the one between the parts or stand
in one of them, and words in front can be the start of a contract's name (`ExportKey.Coincides`). There
are no others (`ExportKey.name_eq_iff`), and none at all for contracts without a dot that do not start as
the schema of a parameter does (`ExportKey.Plain`).

Which export of a module is for what is said by `Keyed`.
-/

set_option autoImplicit false

namespace ContractKit

/-! ## Texts with two readings -/

/-- A text that is put together in two ways is put together of three parts. -/
theorem append_cases {a b c d : String} (h : a ++ b = c ++ d) :
    (∃ m, c = a ++ m ∧ b = m ++ d) ∨ ∃ m, a = c ++ m ∧ d = m ++ b := by
  have hlist : a.toList ++ b.toList = c.toList ++ d.toList := by
    simpa [← String.toList_inj] using h
  rcases List.append_eq_append_iff.mp hlist with ⟨m, hc, hb⟩ | ⟨m, ha, hd⟩
  · left
    refine ⟨String.ofList m, ?_, ?_⟩
    · simpa [← String.toList_inj] using hc
    · simpa [← String.toList_inj] using hb
  · right
    refine ⟨String.ofList m, ?_, ?_⟩
    · simpa [← String.toList_inj] using ha
    · simpa [← String.toList_inj] using hd

/-- What a text starts with that starts with a dot is empty or starts with the dot. -/
theorem dot_cases {n m rest : String} (h : "." ++ n = m ++ rest) :
    (m = "" ∧ rest = "." ++ n) ∨ ∃ m', m = "." ++ m' ∧ n = m' ++ rest := by
  have hlist : '.' :: n.toList = m.toList ++ rest.toList := by
    simpa [← String.toList_inj] using h
  rcases List.cons_eq_append_iff.mp hlist with ⟨hm, hrest⟩ | ⟨m', hm, hn⟩
  · left
    refine ⟨String.toList_eq_nil_iff.mp hm, ?_⟩
    simpa [← String.toList_inj] using hrest
  · right
    refine ⟨String.ofList m', ?_, ?_⟩
    · simpa [← String.toList_inj] using hm
    · simpa [← String.toList_inj] using hn

/-- What stands in front of one dot and not of the other holds the first of them. -/
theorem dotted_cases {c n m n' : String} (h : "." ++ n = m ++ ("." ++ n')) :
    (c = c ++ m ∧ n = n') ∨ ∃ m', c ++ m = c ++ "." ++ m' ∧ n = m' ++ "." ++ n' := by
  rcases dot_cases h with ⟨rfl, hn⟩ | ⟨m', rfl, hn⟩
  · left
    exact ⟨String.append_empty.symm, ((String.append_right_inj _).mp hn).symm⟩
  · right
    refine ⟨m', ?_, ?_⟩
    · rw [String.append_assoc]
    · rw [hn, String.append_assoc]

/-- Words put together by a dot come apart in one way, apart from the dots that they hold. -/
theorem dotted_eq_iff {c n c' n' : String} : c ++ "." ++ n = c' ++ "." ++ n' ↔
    (c = c' ∧ n = n') ∨ (∃ m, c' = c ++ "." ++ m ∧ n = m ++ "." ++ n') ∨
      ∃ m, c = c' ++ "." ++ m ∧ n' = m ++ "." ++ n := by
  constructor
  · intro h
    rw [String.append_assoc, String.append_assoc] at h
    rcases append_cases h with ⟨m, rfl, hn⟩ | ⟨m, rfl, hn⟩
    · rcases dotted_cases (c := c) hn with hsame | hmore
      · exact .inl hsame
      · exact .inr (.inl hmore)
    · rcases dotted_cases (c := c') hn with ⟨hc, hn⟩ | hmore
      · exact .inl ⟨hc.symm, hn.symm⟩
      · exact .inr (.inr hmore)
  · rintro (⟨rfl, rfl⟩ | ⟨m, rfl, rfl⟩ | ⟨m, rfl, rfl⟩)
    · rfl
    · simp only [String.append_assoc]
    · simp only [String.append_assoc]

/-- Words in front that hold no dot are the start of the first of two words put together by one. -/
theorem prefixed_eq_dotted_iff {p c c' n : String} (hp : '.' ∉ p.toList) :
    p ++ c = c' ++ "." ++ n ↔ ∃ m, c' = p ++ m ∧ c = m ++ "." ++ n := by
  constructor
  · intro h
    rw [String.append_assoc] at h
    rcases append_cases h with ⟨m, hc', hc⟩ | ⟨m, rfl, hn⟩
    · exact ⟨m, hc', by rw [hc, String.append_assoc]⟩
    · rcases dot_cases hn with ⟨rfl, hc⟩ | ⟨m', rfl, -⟩
      · refine ⟨"", ?_, ?_⟩
        · rw [String.append_empty, String.append_empty]
        · rw [hc, String.empty_append]
      · simp at hp
  · rintro ⟨m, rfl, rfl⟩
    simp only [String.append_assoc]

/-! ## Entry points -/

/-- What an entry point is for: setting up a contract, or receiving the messages of one name to it.
Hosts think of entry points so; their names are made of this. -/
inductive EntryKey
  | init (contract : String)
  | receive (contract name : String)
  deriving DecidableEq, Repr

/-- What some options are for. -/
def Spec.key (spec : Spec) : EntryKey :=
  match spec.kind with
  | .init => .init spec.contract
  | .receive => .receive spec.contract (spec.receiveName.getD "")

namespace EntryKey

def name : EntryKey → String
  | init contract => "init_" ++ contract
  | receive contract name => contract ++ "." ++ name

/-- The two readings of the name of an entry point. Its parts are put together without a check of what
they hold, so a dot or the prefix of the other kind inside of one makes two keys share a name. -/
inductive Coincides : EntryKey → EntryKey → Prop
  | receive (c m n : String) : Coincides (.receive c (m ++ "." ++ n)) (.receive (c ++ "." ++ m) n)
  | init (c n : String) : Coincides (.init (c ++ "." ++ n)) (.receive ("init_" ++ c) n)

/-- The keys are the same, or two readings of one name. -/
def Alike (k l : EntryKey) : Prop := k = l ∨ k.Coincides l ∨ l.Coincides k

theorem Coincides.name_eq {k l : EntryKey} (h : k.Coincides l) : k.name = l.name := by
  cases h with
  | receive c m n => simp [name, String.append_assoc]
  | init c n => simp [name, String.append_assoc]

/-- **Two entry points have one name exactly if they are the same, or the name has these readings.** The
parts of a name are put together without marks of their own, and these are all the ways in which that
can coincide. -/
theorem name_eq_iff {k l : EntryKey} : k.name = l.name ↔ k.Alike l := by
  constructor
  · have hmixed : ∀ {c c' n : String}, "init_" ++ c = c' ++ "." ++ n →
        Coincides (.init c) (.receive c' n) := by
      intro c c' n h
      obtain ⟨m, rfl, rfl⟩ := (prefixed_eq_dotted_iff (by decide)).mp h
      exact .init m n
    intro h
    cases k with
    | init c =>
      cases l with
      | init c' =>
        obtain rfl := (String.append_right_inj _).mp h
        exact .inl rfl
      | receive c' n' => exact .inr (.inl (hmixed h))
    | receive c n =>
      cases l with
      | init c' => exact .inr (.inr (hmixed h.symm))
      | receive c' n' =>
        rcases dotted_eq_iff.mp h with ⟨rfl, rfl⟩ | ⟨m, rfl, rfl⟩ | ⟨m, rfl, rfl⟩
        · exact .inl rfl
        · exact .inr (.inl (.receive c m n'))
        · exact .inr (.inr (.receive c' m n))
  · rintro (rfl | h | h)
    · rfl
    · exact h.name_eq
    · exact h.name_eq.symm

end EntryKey

theorem Spec.exportName_eq (spec : Spec) : spec.exportName = spec.key.name := by
  unfold exportName key
  cases spec.kind with
  | init => rfl
  | receive => rfl

/-! ## Exports -/

/-- What an export is for. Beside the entry points there are the schemas of their parameters, the
schemas of states, and tests. -/
inductive ExportKey
  | entry (key : EntryKey)
  /-- The schema of the parameter of an entry point. -/
  | parameter (key : EntryKey)
  /-- The schema of the state of a contract. -/
  | state (contract : String)
  | test (function : String)
  deriving DecidableEq, Repr

namespace ExportKey

def name : ExportKey → String
  | entry key => key.name
  | parameter key => "concordium_schema_function_" ++ key.name
  | state contract => "concordium_schema_state_" ++ contract
  | test function => "concordium test " ++ function

/-- The two readings of the name of an export. -/
inductive Coincides : ExportKey → ExportKey → Prop
  | entry {k l : EntryKey} (h : k.Coincides l) : Coincides (.entry k) (.entry l)
  | parameter {k l : EntryKey} (h : k.Coincides l) : Coincides (.parameter k) (.parameter l)
  | parameterEntry {k : EntryKey} {c n : String} (h : k.Alike (.receive c n)) :
      Coincides (.parameter k) (.entry (.receive ("concordium_schema_function_" ++ c) n))
  | stateEntry (c n : String) :
      Coincides (.state (c ++ "." ++ n)) (.entry (.receive ("concordium_schema_state_" ++ c) n))
  | testEntry (f n : String) :
      Coincides (.test (f ++ "." ++ n)) (.entry (.receive ("concordium test " ++ f) n))

/-- The keys are the same, or two readings of one name. -/
def Alike (k l : ExportKey) : Prop := k = l ∨ k.Coincides l ∨ l.Coincides k

theorem Alike.symm {k l : ExportKey} (h : k.Alike l) : l.Alike k := by
  rcases h with rfl | h | h
  · exact .inl rfl
  · exact .inr (.inr h)
  · exact .inr (.inl h)

theorem alike_entry {k l : EntryKey} (h : k.Alike l) : (entry k).Alike (entry l) := by
  rcases h with rfl | h | h
  · exact .inl rfl
  · exact .inr (.inl (.entry h))
  · exact .inr (.inr (.entry h))

theorem alike_parameter {k l : EntryKey} (h : k.Alike l) : (parameter k).Alike (parameter l) := by
  rcases h with rfl | h | h
  · exact .inl rfl
  · exact .inr (.inl (.parameter h))
  · exact .inr (.inr (.parameter h))

theorem Coincides.name_eq {k l : ExportKey} (h : k.Coincides l) : k.name = l.name := by
  cases h with
  | entry h => exact h.name_eq
  | parameter h => exact congrArg ("concordium_schema_function_" ++ ·) h.name_eq
  | @parameterEntry k c n h =>
    calc "concordium_schema_function_" ++ k.name
        = "concordium_schema_function_" ++ (c ++ "." ++ n) := by rw [EntryKey.name_eq_iff.mpr h]; rfl
      _ = "concordium_schema_function_" ++ c ++ "." ++ n := by simp only [String.append_assoc]
  | stateEntry c n =>
    calc "concordium_schema_state_" ++ (c ++ "." ++ n)
        = "concordium_schema_state_" ++ c ++ "." ++ n := by simp only [String.append_assoc]
  | testEntry f n =>
    calc "concordium test " ++ (f ++ "." ++ n)
        = "concordium test " ++ f ++ "." ++ n := by simp only [String.append_assoc]

/-- Words in front that differ in a letter tell names apart. -/
theorem prefixed_ne {p q : String} (i : Nat) (hp : i < p.toList.length) (hq : i < q.toList.length)
    (hletter : p.toList[i] ≠ q.toList[i]) (text other : String) : p ++ text ≠ q ++ other := by
  intro h
  have hlist : p.toList ++ text.toList = q.toList ++ other.toList := by
    simpa [← String.toList_inj] using h
  have hat := congrArg (fun letters : List Char => letters[i]?) hlist
  simp only [List.getElem?_append_left hp, List.getElem?_append_left hq,
    List.getElem?_eq_getElem hp, List.getElem?_eq_getElem hq, Option.some.injEq] at hat
  exact hletter hat

/-- An export with words in front has the name of an entry point only if a receive function has these
words in front of its contract, and no dot is among them. -/
theorem eq_receive_of_prefixed {p text : String} {l : EntryKey} (hp : '.' ∉ p.toList)
    (hinit : ∀ contract, p ++ text ≠ "init_" ++ contract) (h : p ++ text = l.name) :
    ∃ c n, l = .receive (p ++ c) n ∧ text = c ++ "." ++ n := by
  cases l with
  | init contract => exact absurd h (hinit contract)
  | receive contract n =>
    obtain ⟨c, rfl, htext⟩ := (prefixed_eq_dotted_iff hp).mp h
    exact ⟨c, n, rfl, htext⟩

/-- An export that has the name of an entry point is that entry point or has two readings. -/
theorem alike_entry_of_name_eq {k : ExportKey} {l : EntryKey} (h : k.name = l.name) :
    k.Alike (entry l) := by
  cases k with
  | entry k => exact alike_entry (EntryKey.name_eq_iff.mp h)
  | parameter k =>
    obtain ⟨c, n, rfl, hk⟩ := eq_receive_of_prefixed (by decide)
      (prefixed_ne 0 (by decide) (by decide) (by decide) _) h
    exact .inr (.inl (.parameterEntry (EntryKey.name_eq_iff.mp hk)))
  | state contract =>
    obtain ⟨c, n, rfl, rfl⟩ := eq_receive_of_prefixed (by decide)
      (prefixed_ne 0 (by decide) (by decide) (by decide) _) h
    exact .inr (.inl (.stateEntry c n))
  | test function =>
    obtain ⟨c, n, rfl, rfl⟩ := eq_receive_of_prefixed (by decide)
      (prefixed_ne 0 (by decide) (by decide) (by decide) _) h
    exact .inr (.inl (.testEntry c n))

/-- **Two exports have one name exactly if they are for the same, or the name has two readings.** -/
theorem name_eq_iff {k l : ExportKey} : k.name = l.name ↔ k.Alike l := by
  constructor
  · intro h
    cases k with
    | entry k => exact (alike_entry_of_name_eq h.symm).symm
    | parameter k =>
      cases l with
      | entry l => exact alike_entry_of_name_eq h
      | parameter l => exact alike_parameter (EntryKey.name_eq_iff.mp ((String.append_right_inj _).mp h))
      | state contract => exact absurd h (prefixed_ne 18 (by decide) (by decide) (by decide) _ _)
      | test function => exact absurd h (prefixed_ne 10 (by decide) (by decide) (by decide) _ _)
    | state contract =>
      cases l with
      | entry l => exact alike_entry_of_name_eq h
      | parameter l => exact absurd h (prefixed_ne 18 (by decide) (by decide) (by decide) _ _)
      | state other => exact .inl (congrArg state ((String.append_right_inj _).mp h))
      | test function => exact absurd h (prefixed_ne 10 (by decide) (by decide) (by decide) _ _)
    | test function =>
      cases l with
      | entry l => exact alike_entry_of_name_eq h
      | parameter l => exact absurd h (prefixed_ne 10 (by decide) (by decide) (by decide) _ _)
      | state contract => exact absurd h (prefixed_ne 10 (by decide) (by decide) (by decide) _ _)
      | test other => exact .inl (congrArg test ((String.append_right_inj _).mp h))
  · rintro (rfl | h | h)
    · rfl
    · exact h.name_eq
    · exact h.name_eq.symm

end ExportKey

/-! ## Names with one reading -/

/-- The contract holds no dot and does not start as the schema of a parameter does. -/
def EntryKey.Plain : EntryKey → Prop
  | init contract => '.' ∉ contract.toList
  | receive contract _ =>
    '.' ∉ contract.toList ∧ ¬ "concordium_schema_function_".toList <+: contract.toList

instance : DecidablePred EntryKey.Plain
  | .init contract => inferInstanceAs (Decidable ('.' ∉ contract.toList))
  | .receive contract _ => inferInstanceAs (Decidable ('.' ∉ contract.toList ∧
      ¬ "concordium_schema_function_".toList <+: contract.toList))

namespace ExportKey

/-- There is no dot in front of the one that a name is put together by. -/
def Plain : ExportKey → Prop
  | entry key => key.Plain
  | parameter key => key.Plain
  | state contract => '.' ∉ contract.toList
  | test function => '.' ∉ function.toList

instance : DecidablePred Plain
  | entry key => inferInstanceAs (Decidable key.Plain)
  | parameter key => inferInstanceAs (Decidable key.Plain)
  | state contract => inferInstanceAs (Decidable ('.' ∉ contract.toList))
  | test function => inferInstanceAs (Decidable ('.' ∉ function.toList))

theorem dot_mem (c n : String) : '.' ∈ (c ++ "." ++ n).toList := by simp

theorem not_plain_of_coincides {k l : EntryKey} (h : k.Coincides l) : ¬ (k.Plain ∧ l.Plain) := by
  rintro ⟨hk, hl⟩
  cases h with
  | receive c m n => exact hl.1 (dot_mem c m)
  | init c n => exact hk (dot_mem c n)

/-- **Plain names have one reading.** A name is plain if there is no dot and none of the prefixes of
other exports where they could be taken for a part that the library adds. -/
theorem alike_iff_of_plain {k l : ExportKey} (hk : k.Plain) (hl : l.Plain) : k.Alike l ↔ k = l := by
  have hone : ∀ {k l : ExportKey}, k.Plain → l.Plain → ¬ k.Coincides l := by
    intro k l hk hl h
    cases h with
    | entry h => exact not_plain_of_coincides h ⟨hk, hl⟩
    | parameter h => exact not_plain_of_coincides h ⟨hk, hl⟩
    | @parameterEntry k c n h =>
      refine hl.2 ?_
      rw [String.toList_append]
      exact List.prefix_append _ _
    | stateEntry c n => exact hk (dot_mem c n)
    | testEntry f n => exact hk (dot_mem f n)
  constructor
  · rintro (h | h | h)
    · exact h
    · exact absurd h (hone hk hl)
    · exact absurd h (hone hl hk)
  · exact .inl

end ExportKey

/-! ## Keys of exports -/

/-- What each of some exports is for. The schema of a parameter stands right behind its entry point, and
does not say by itself whose it is; so the list is gone through from its front. -/
inductive Keyed : List Export → List ExportKey → Prop
  | nil : Keyed [] []
  | entry {es : List Export} {ks : List ExportKey} {e : Export} {spec : Spec} {place : Nat}
      {plan? : Option StatePlan} (h : Keyed es ks) (hbody : e.body = .entryPoint spec place plan?)
      (hname : e.name = spec.exportName) : Keyed (es ++ [e]) (ks ++ [.entry spec.key])
  | parameter {es : List Export} {ks : List ExportKey} {before e : Export} {spec : Spec} {place : Nat}
      {plan? : Option StatePlan} {p : ParameterType} (h : Keyed es ks)
      (hbefore : es.getLast? = some before) (hentry : before.body = .entryPoint spec place plan?)
      (hparameter : spec.parameter = some p) (hbody : e.body = .parameterSchema p)
      (hname : e.name = "concordium_schema_function_" ++ spec.exportName) :
      Keyed (es ++ [e]) (ks ++ [.parameter spec.key])
  | state {es : List Export} {ks : List ExportKey} {e : Export} {data : Bytes} {contract : String}
      (h : Keyed es ks) (hbody : e.body = .stateSchema data)
      (hname : e.name = "concordium_schema_state_" ++ contract) :
      Keyed (es ++ [e]) (ks ++ [.state contract])
  | test {es : List Export} {ks : List ExportKey} {e : Export} {place : Nat} (h : Keyed es ks)
      (hbody : e.body = .test place) (hname : e.name = "concordium test " ++ e.origin) :
      Keyed (es ++ [e]) (ks ++ [.test e.origin])

namespace Keyed

variable {es fs : List Export} {ks ls : List ExportKey}

/-- The exports of several things are for what those of each are for. -/
theorem append (hes : Keyed es ks) (hfs : Keyed fs ls) : Keyed (es ++ fs) (ks ++ ls) := by
  induction hfs with
  | nil => simpa using hes
  | entry _ hbody hname ih =>
    rw [← List.append_assoc, ← List.append_assoc]
    exact .entry ih hbody hname
  | parameter _ hbefore hentry hparameter hbody hname ih =>
    rw [← List.append_assoc, ← List.append_assoc]
    refine .parameter ih ?_ hentry hparameter hbody hname
    rw [List.getLast?_append, hbefore]
    rfl
  | state _ hbody hname ih =>
    rw [← List.append_assoc, ← List.append_assoc]
    exact .state ih hbody hname
  | test _ hbody hname ih =>
    rw [← List.append_assoc, ← List.append_assoc]
    exact .test ih hbody hname

theorem map_name_concat {e : Export} {k : ExportKey} (h : es.map Export.name = ks.map ExportKey.name)
    (hname : e.name = k.name) : (es ++ [e]).map Export.name = (ks ++ [k]).map ExportKey.name := by
  rw [List.map_append, List.map_append, h, List.map_singleton, List.map_singleton, hname]

/-- **Every export has the name of what it is for.** -/
theorem map_name (h : Keyed es ks) : es.map Export.name = ks.map ExportKey.name := by
  induction h with
  | nil => rfl
  | entry _ _ hname ih => exact map_name_concat ih (hname.trans (Spec.exportName_eq _))
  | parameter _ _ _ _ _ hname ih =>
    rw [Spec.exportName_eq] at hname
    exact map_name_concat ih hname
  | state _ _ hname ih => exact map_name_concat ih hname
  | test _ _ hname ih => exact map_name_concat ih hname

theorem getElem?_map_name (h : Keyed es ks) (place : Nat) :
    es[place]?.map Export.name = ks[place]?.map ExportKey.name := by
  rw [← List.getElem?_map, ← List.getElem?_map, h.map_name]

theorem exists_key (h : Keyed es ks) {place : Nat} {e : Export} (he : es[place]? = some e) :
    ∃ k, ks[place]? = some k ∧ k.name = e.name := by
  have hname := h.getElem?_map_name place
  rw [he] at hname
  exact Option.map_eq_some_iff.mp hname.symm

theorem exists_export (h : Keyed es ks) {place : Nat} {k : ExportKey} (hk : ks[place]? = some k) :
    ∃ e, es[place]? = some e ∧ e.name = k.name := by
  have hname := h.getElem?_map_name place
  rw [hk] at hname
  exact Option.map_eq_some_iff.mp hname

end Keyed

end ContractKit
