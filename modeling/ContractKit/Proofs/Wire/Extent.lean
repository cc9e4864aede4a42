import ContractKit.Proofs.Fault.Confined
import ContractKit.Proofs.Wire.Programs

/-!
# `Proofs/Wire/Extent.lean`: how reading fails, and how far it looks

Facts about a reading program that follow from those about its parts. `FailsOnWire` says that
whatever is wrong with the bytes is reported as a wire error. `AgreesBelow n` compares two programs on
the strings of fewer than `n` bytes: a recursion whose every level consumes a byte cannot be told from
a deeper one on a string that is too short to reach the difference. And a program that takes a string
asks for every byte of it, so it misses those that are cut off (`run_of_takes_append`), and for none
behind it.
-/

set_option autoImplicit false

namespace ContractKit.Read

variable {α β : Type}

/-! ## Failing -/

/-- Whether a program fails with wire errors only. -/
abbrev FailsOnWire (p : Read α) : Prop := p.Confined fun f => ∃ e, f = .wire e

/-- A program that fails with wire errors only has no other fault where it has to consume a whole
string. -/
theorem FailsOnWire.runAll {p : Read α} (h : p.FailsOnWire) {f : Fault} {data : Bytes}
    (hrun : p.runAll data = .error f) : ∃ e, f = .wire e :=
  Confined.runAll h ⟨_, rfl⟩ ⟨_, rfl⟩ data f hrun

/-! ## Looking -/

/-- Nothing that a program leaves was not there before. -/
theorem length_run_le (p : Read α) : ∀ data : Bytes, (p.run data).2.length ≤ data.length := by
  induction p with
  | done a => exact fun _ => Nat.le_refl _
  | fail f => exact fun _ => Nat.le_refl _
  | byte next ih =>
    intro data
    cases data with
    | nil => exact Nat.le_refl _
    | cons b data => exact Nat.le_succ_of_le (ih b data)
  | bytes n next ih =>
    intro data
    rw [run]
    split
    · refine Nat.le_trans (ih _ _) ?_
      rw [List.length_drop]
      omega
    · exact Nat.le_refl _

/-- A program that takes a string runs out of bytes on every front of it that is not the whole. -/
theorem run_of_takes_append {p : Read α} {a : α} {front rest : Bytes} (hrest : rest ≠ [])
    (h : p.Takes (front ++ rest) a) : (p.run front).1 = .error (.wire .outOfData) := by
  induction p generalizing front with
  | done x => exact absurd (List.append_eq_nil_iff.mp h.1).2 hrest
  | fail f => exact h.elim
  | byte next ih =>
    cases front with
    | nil => rfl
    | cons b front =>
      obtain ⟨b', tail, hdata, htail⟩ := h
      obtain ⟨rfl, rfl⟩ := List.cons.inj hdata
      exact ih b htail
  | bytes n next ih =>
    obtain ⟨x, y, hdata, rfl, hy⟩ := h
    simp only [run, hasAtLeast_eq, decide_eq_true_eq]
    split
    · rename_i hn
      -- the request lies inside the front, so the cut is in what is read afterwards
      have htake := congrArg (List.take x.length) hdata
      have hdrop := congrArg (List.drop x.length) hdata
      rw [List.take_append_of_le_length hn, List.take_left] at htake
      rw [List.drop_append_of_le_length hn, List.drop_left] at hdrop
      rw [htake]
      apply ih
      rw [hdrop]
      exact hy
    · rfl

/-- A program that has to consume a whole string says so when it is given more than it takes. -/
theorem runAll_append_of_takes {p : Read α} {a : α} {data rest : Bytes} (h : p.Takes data a)
    (hrest : rest ≠ []) : p.runAll (data ++ rest) = .error (.wire .trailingData) := by
  have hrun : p.run (data ++ rest) = (.ok a, rest) := run_eq_ok_iff.mpr ⟨data, rfl, h⟩
  rw [runAll, hrun]
  cases rest with
  | nil => exact absurd rfl hrest
  | cons b rest => rfl

/-- It runs out of bytes when it is given less. -/
theorem runAll_of_takes_append {p : Read α} {a : α} {front rest : Bytes} (hrest : rest ≠ [])
    (h : p.Takes (front ++ rest) a) : p.runAll front = .error (.wire .outOfData) := by
  have hrun := run_of_takes_append hrest h
  rw [runAll]
  split
  · rename_i heq
    rw [heq] at hrun
    exact hrun
  · rename_i heq
    rw [heq] at hrun
    cases hrun
  · rename_i heq
    rw [heq] at hrun
    cases hrun

/-- Whether two programs do the same on all strings of fewer than `n` bytes. -/
def AgreesBelow (n : Nat) (p q : Read α) : Prop :=
  ∀ data : Bytes, data.length < n → p.run data = q.run data

namespace AgreesBelow

variable {n : Nat}

theorem refl (p : Read α) : AgreesBelow n p p := fun _ _ => rfl

theorem bind {p q : Read α} {k l : α → Read β} (h : AgreesBelow n p q)
    (hk : ∀ a, AgreesBelow n (k a) (l a)) : AgreesBelow n (p.bind k) (q.bind l) := by
  intro data hdata
  rw [run_bind, run_bind, h data hdata]
  have hlen := length_run_le q data
  rcases hq : q.run data with ⟨f | a, rest⟩
  · rfl
  · rw [hq] at hlen
    -- the rest is no longer than the whole, so the bound carries over
    exact hk a rest (Nat.lt_of_le_of_lt hlen hdata)

/-- The first byte is one byte less to look at. -/
theorem byte {k l : UInt8 → Read α} (h : ∀ b, AgreesBelow n (k b) (l b)) :
    AgreesBelow (n + 1) (byte k) (byte l) := by
  intro data hdata
  cases data with
  | nil => rfl
  | cons b data => exact h b data (Nat.lt_of_succ_lt_succ hdata)

theorem mono {m : Nat} {p q : Read α} (h : AgreesBelow n p q) (hm : m ≤ n) : AgreesBelow m p q :=
  fun data hdata => h data (Nat.lt_of_lt_of_le hdata hm)

theorem repeatOnto {p q : Read α} (h : AgreesBelow n p q) :
    ∀ (count : Nat) (acc : List α),
      AgreesBelow n (repeatOnto p count acc) (repeatOnto q count acc)
  | 0, _ => refl _
  | count + 1, acc => h.bind fun a => repeatOnto h count (a :: acc)

theorem prefixedItems {p q : Read α} (h : AgreesBelow n p q) (width : PrefixWidth) :
    AgreesBelow n (prefixedItems width p) (prefixedItems width q) :=
  (refl _).bind fun count => (h.repeatOnto count []).bind fun _ => refl _

end AgreesBelow

end ContractKit.Read
