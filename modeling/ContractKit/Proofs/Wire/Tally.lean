import ContractKit.Proofs.Schema.Walk

/-!
# `Proofs/Wire/Tally.lean`: how many items are read

A count says how many items to read and is taken at its word. `tally` is the reader of counted items
that also says how many of them were read to their end, whatever came of it: the last of them may have
been refused, or the bytes may have run out. It is the reader itself (`run_counted`). If no item takes
less than a byte, there are no more of them than bytes (`items_tally_le`), so a count above that leads
to a fault.
-/

set_option autoImplicit false

namespace ContractKit.Read

variable {α β : Type}

/-! ## The least that is taken -/

/-- Whenever the program ends with a result, it has taken so many bytes. -/
def AtLeast (n : Nat) (p : Read α) : Prop := ∀ ⦃data : Bytes⦄ ⦃a : α⦄, p.Takes data a → n ≤ data.length

theorem AtLeast.run {n : Nat} {p : Read α} (h : p.AtLeast n) {data rest : Bytes} {a : α}
    (hrun : p.run data = (.ok a, rest)) : n + rest.length ≤ data.length := by
  obtain ⟨front, rfl, htakes⟩ := run_eq_ok_iff.mp hrun
  have hfront := h htakes
  rw [List.length_append]
  omega

theorem AtLeast.mono {n m : Nat} {p : Read α} (h : p.AtLeast m) (hle : n ≤ m) : p.AtLeast n :=
  fun _ _ htakes => hle.trans (h htakes)

theorem AtLeast.bind {n m : Nat} {p : Read α} {k : α → Read β} (hp : p.AtLeast n)
    (hk : ∀ a, (k a).AtLeast m) : (p.bind k).AtLeast (n + m) := by
  intro data x h
  obtain ⟨a, front, rest, rfl, hfront, hrest⟩ := takes_bind.mp h
  have h1 := hp hfront
  have h2 := hk a hrest
  rw [List.length_append]
  omega

theorem atLeast_zero (p : Read α) : p.AtLeast 0 := fun _ _ _ => Nat.zero_le _

theorem atLeast_fail (n : Nat) (f : Fault) : (fail f : Read α).AtLeast n := by
  intro data a h
  cases h

theorem atLeast_getBytes (n : Nat) : (getBytes n).AtLeast n := by
  intro data x h
  exact (takes_getBytes.mp h).2.ge

theorem atLeast_count (width : PrefixWidth) : (count width).AtLeast width.bytes :=
  (atLeast_getBytes width.bytes).bind fun _ => atLeast_zero _

theorem atLeast_skip (n : Nat) : (skip n).AtLeast n := by
  intro data a h
  exact (takes_skip.mp h).ge

theorem atLeast_skipCounted (width : PrefixWidth) (item : Read Unit) :
    (skipCounted width item).AtLeast width.bytes :=
  AtLeast.bind ((atLeast_count width).bind fun _ => atLeast_zero _) fun _ => atLeast_zero _

theorem atLeast_skipTagged {n m : Nat} {cases : List (Read Unit)}
    (htag : n = if cases.length ≤ 256 then 1 else 2) (hcases : ∀ p ∈ cases, p.AtLeast m) :
    (skipTagged cases).AtLeast (n + m) := by
  subst htag
  refine (atLeast_getBytes _).bind fun data => ?_
  split
  · rename_i p hp
    exact hcases p (List.mem_of_getElem? hp)
  · exact atLeast_fail m _

/-! ## Counting what is read -/

/-- What comes of reading item by item: how many items there were, the outcome, and the bytes left. It
counts on failure as well, where the reader itself answers with the fault alone. -/
structure Tally (α : Type) where
  /-- The number of items that were read to their end. -/
  items : Nat
  outcome : Except Fault α
  /-- The bytes left. -/
  rest : Bytes

namespace Tally

def map (f : α → β) (t : Tally α) : Tally β := ⟨t.items, t.outcome.map f, t.rest⟩

/-- One more item before the others. -/
def more (t : Tally α) : Tally α := { t with items := t.items + 1 }

end Tally

variable {check : KeyCheck} {key : α → Value} {item : Read α}

/-- What comes of reading `n` items with their keys checked, where those in `acc` were read before. An
item whose key is refused was read to its end. -/
def tallyOnto (check : KeyCheck) (key : α → Value) (item : Read α) :
    (n : Nat) → (acc : List α) → Bytes → Tally (List α)
  | 0, acc, data => ⟨0, .ok acc, data⟩
  | n + 1, acc, data =>
    match item.run data with
    | (.error f, rest) => ⟨0, .error f, rest⟩
    | (.ok a, rest) =>
      match check.accepts (acc.head?.map key) (key a) with
      | .error f => ⟨1, .error f, rest⟩
      | .ok () => (tallyOnto check key item n (a :: acc) rest).more

/-- What comes of reading a count and so many items, and making something of them. -/
def tally (width : PrefixWidth) (check : KeyCheck) (key : α → Value) (item : Read α)
    (build : List α → β) (data : Bytes) : Tally β :=
  match (count width).run data with
  | (.error f, rest) => ⟨0, .error f, rest⟩
  | (.ok n, rest) => (tallyOnto check key item n [] rest).map fun rev => build rev.reverse

/-- What comes of reading a count and so many bytes, which are read all at once, and going on with
them. -/
def tallyBytes (width : PrefixWidth) (next : Bytes → Read β) (data : Bytes) : Tally β :=
  match (count width).run data with
  | (.error f, rest) => ⟨0, .error f, rest⟩
  | (.ok n, rest) =>
    ⟨if n ≤ rest.length then n else 0, (((getBytes n).bind next).run rest).1,
      (((getBytes n).bind next).run rest).2⟩

/-! ### It is the reader -/

theorem bind_bind {γ : Type} (p : Read α) (k : α → Read β) (l : β → Read γ) :
    (p.bind k).bind l = p.bind fun a => (k a).bind l := by
  induction p with
  | done a => rfl
  | fail f => rfl
  | byte next ih => exact congrArg Read.byte (funext ih)
  | bytes n next ih => exact congrArg (Read.bytes n) (funext ih)

theorem run_keyedOnto : ∀ (n : Nat) (acc : List α) (data : Bytes),
    (keyedOnto check key item n acc).run data =
      ((tallyOnto check key item n acc data).outcome, (tallyOnto check key item n acc data).rest)
  | 0, _, _ => rfl
  | n + 1, acc, data => by
    rw [keyedOnto, tallyOnto, run_bind]
    cases hrun : item.run data with
    | mk outcome rest =>
      cases outcome with
      | error f => rfl
      | ok a =>
        simp only
        cases check.accepts (acc.head?.map key) (key a) with
        | error f => rfl
        | ok u => exact run_keyedOnto n (a :: acc) rest

/-- **The reader and the one that counts do the same.** -/
theorem run_counted (width : PrefixWidth) (build : List α → β) (data : Bytes) :
    ((keyed width check key item).bind fun as => done (build as)).run data =
      ((tally width check key item build data).outcome,
        (tally width check key item build data).rest) := by
  rw [keyed, tally, run_bind, run_bind]
  rcases (count width).run data with ⟨f | n, rest⟩
  · rfl
  · simp only [run_bind, run_keyedOnto, Tally.map]
    cases (tallyOnto check key item n [] rest).outcome <;> rfl

/-- Items without keys are items with keys that are not looked at. -/
theorem keyedOnto_unchecked : ∀ (n : Nat) (acc : List α),
    keyedOnto ⟨false, false⟩ key item n acc = repeatOnto item n acc
  | 0, _ => rfl
  | n + 1, acc => by
    rw [keyedOnto, repeatOnto]
    refine congrArg item.bind (funext fun a => ?_)
    exact keyedOnto_unchecked n (a :: acc)

theorem keyed_unchecked (width : PrefixWidth) :
    keyed width ⟨false, false⟩ key item = prefixedItems width item := by
  rw [keyed, prefixedItems]
  refine congrArg (count width).bind (funext fun n => ?_)
  rw [keyedOnto_unchecked]
  rfl

theorem run_countedBytes (width : PrefixWidth) (next : Bytes → Read β) (data : Bytes) :
    ((prefixedBytes width).bind next).run data =
      ((tallyBytes width next data).outcome, (tallyBytes width next data).rest) := by
  rw [prefixedBytes, tallyBytes, run_bind, run_bind]
  rcases (count width).run data with ⟨f | n, rest⟩
  · rfl
  · simp only [run_bind]

/-! ### No more items than bytes -/

/-- Every item that was read has its bytes among those that were there. -/
theorem items_tallyOnto_le {m : Nat} (hitem : item.AtLeast m) : ∀ (n : Nat) (acc : List α)
    (data : Bytes), (tallyOnto check key item n acc data).items * m ≤ data.length
  | 0, _, data => by
    show 0 * m ≤ data.length
    omega
  | n + 1, acc, data => by
    rw [tallyOnto]
    rcases hrun : item.run data with ⟨f | a, rest⟩
    · show 0 * m ≤ data.length
      omega
    · have hle := hitem.run hrun
      simp only
      cases check.accepts (acc.head?.map key) (key a) with
      | error f =>
        show 1 * m ≤ data.length
        omega
      | ok u =>
        have ih := items_tallyOnto_le hitem n (a :: acc) rest
        show ((tallyOnto check key item n (a :: acc) rest).items + 1) * m ≤ data.length
        rw [Nat.succ_mul]
        omega

/-- A result is one of all the items that were asked for. -/
theorem items_tallyOnto_of_ok : ∀ {n : Nat} {acc : List α} {data : Bytes} {as : List α},
    (tallyOnto check key item n acc data).outcome = .ok as →
      (tallyOnto check key item n acc data).items = n
  | 0, _, _, _, _ => rfl
  | n + 1, acc, data, as, h => by
    rw [tallyOnto] at h ⊢
    rcases hrun : item.run data with ⟨f | a, rest⟩
    · rw [hrun] at h
      cases h
    · simp only [hrun] at h ⊢
      cases hcheck : check.accepts (acc.head?.map key) (key a) with
      | error f =>
        rw [hcheck] at h
        cases h
      | ok u =>
        rw [hcheck] at h
        exact congrArg (· + 1) (items_tallyOnto_of_ok h)

section Counted

variable {width : PrefixWidth} {build : List α → β} {next : Bytes → Read β} {data rest : Bytes}
  {n : Nat}

/-- **If an item takes a byte at least, no more items are read than there are bytes.** -/
theorem items_tally_le (hitem : item.AtLeast 1) :
    (tally width check key item build data).items ≤ data.length := by
  rw [tally]
  rcases hcount : (count width).run data with ⟨f | n, rest⟩
  · exact Nat.zero_le _
  · have hle : (tallyOnto check key item n [] rest).items * 1 ≤ rest.length :=
      items_tallyOnto_le hitem n [] rest
    have hrest := (atLeast_count width).run hcount
    show (tallyOnto check key item n [] rest).items ≤ data.length
    omega

/-- **A count above the number of bytes behind it ends in a fault.** -/
theorem tally_of_lt (hitem : item.AtLeast 1) (hcount : (count width).run data = (.ok n, rest))
    (hlt : rest.length < n) : ∃ f, (tally width check key item build data).outcome = .error f := by
  have hle : (tallyOnto check key item n [] rest).items * 1 ≤ rest.length :=
    items_tallyOnto_le hitem n [] rest
  rw [tally, hcount]
  show ∃ f, (tallyOnto check key item n [] rest).outcome.map _ = .error f
  cases h : (tallyOnto check key item n [] rest).outcome with
  | error f => exact ⟨f, rfl⟩
  | ok as =>
    rw [items_tallyOnto_of_ok h] at hle
    omega

theorem items_tallyBytes_le : (tallyBytes width next data).items ≤ data.length := by
  rw [tallyBytes]
  rcases hcount : (count width).run data with ⟨f | n, rest⟩
  · exact Nat.zero_le _
  · have hrest := (atLeast_count width).run hcount
    show (if n ≤ rest.length then n else 0) ≤ data.length
    split
    · omega
    · omega

theorem tallyBytes_of_lt (hcount : (count width).run data = (.ok n, rest)) (hlt : rest.length < n) :
    ∃ f, (tallyBytes width next data).outcome = .error f := by
  have hrun : (getBytes n).run rest = (.error (.wire .outOfData), rest) := by
    rw [getBytes, run, hasAtLeast_eq, decide_eq_false (Nat.not_le.mpr hlt)]
    rfl
  rw [tallyBytes, hcount]
  simp only [run_bind, hrun]
  exact ⟨_, rfl⟩

end Counted

end ContractKit.Read
