import ContractKit.Proofs.Fault.Confined
import ContractKit.Proofs.Wire.Keyed

/-!
# `Proofs/Wire/Failing.lean`: with which faults a run fails

`Read.Confined` asks about everything that a program could go on with. That is too much of a program
that compares what it reads: two keys that were really read have an order, and two arbitrary values
may have none. `Read.Within` asks about runs, so what follows a part of a program has to be within a
class for those results only that the part takes some bytes for (`Within.bind`).

The check of keys is where the two differ. Among values that are fit to be keys together it refuses an
order and nothing else (`KeyCheck.confined_keySpace`), and so does reading items with such keys
(`Within.keyed`).
-/

set_option autoImplicit false

namespace ContractKit

variable {P : Fault → Prop} {Q : Value → Prop}

/-- A check of keys that are fit to be keys together fails with wire errors only. -/
theorem KeyCheck.confined_keySpace (hspace : Value.KeySpace Q) (hwire : ∀ error, P (.wire error))
    (check : KeyCheck) {previous : Option Value} {k : Value}
    (hprevious : ∀ p, previous = some p → Q p) (hk : Q k) :
    Confined P (check.accepts previous k) := by
  refine confined_accepts (fun p hp => ?_) fun hhash => ?_
  · unfold follows
    rcases hspace.strict.answers (hprevious p hp) hk with h | h
    · rw [h]
      exact .ok _
    · rw [h]
      exact .error (hwire _)
  · rw [hspace.hashable hk] at hhash
    cases hhash

namespace Read

variable {α β : Type} {p : Read α} {item : Read α}

/-- What a program can fail with at all it can fail with when it is run, and running out of bytes is
one of these. -/
theorem Confined.within (h : p.Confined P) (hwire : ∀ error, P (.wire error)) : p.Within P :=
  h.run (hwire _)

namespace Within

theorem done (a : α) : (Read.done a).Within P := by
  intro data
  exact .ok _

theorem fail {f : Fault} (h : P f) : (Read.fail f : Read α).Within P := by
  intro data
  exact .error h

/-- What comes after a program is asked only about results that the program can have. -/
theorem bind {k : α → Read β} (hp : p.Within P)
    (hk : ∀ a data, p.Takes data a → (k a).Within P) : (p.bind k).Within P := by
  intro data
  have hrun := hp data
  rw [run_bind]
  rcases h : p.run data with ⟨f | a, rest⟩
  · rw [h] at hrun
    exact .error (hrun f rfl)
  · obtain ⟨front, -, htakes⟩ := run_eq_ok_iff.mp h
    exact hk a front htakes rest

theorem map {g : α → β} (hp : p.Within P) : (p.bind fun a => Read.done (g a)).Within P :=
  bind hp fun a _ _ => done (g a)

theorem byte {next : UInt8 → Read α} (hout : P (.wire .outOfData))
    (h : ∀ b, (next b).Within P) : (Read.byte next).Within P := by
  intro data
  cases data with
  | nil => exact .error hout
  | cons b data => exact h b data

/-! ### Items behind a count -/

theorem repeatOnto (h : item.Within P) : ∀ (n : Nat) (acc : List α),
    (Read.repeatOnto item n acc).Within P := by
  intro n
  induction n with
  | zero => exact done
  | succ n ih => exact fun acc => bind h fun a _ _ => ih (a :: acc)

theorem prefixedItems (h : item.Within P) (hwire : ∀ error, P (.wire error)) (width : PrefixWidth) :
    (Read.prefixedItems width item).Within P :=
  bind ((Confined.count width).within hwire) fun n _ _ => map (repeatOnto h n [])

section Keyed

variable {key : α → Value} (hspace : Value.KeySpace Q) (hwire : ∀ error, P (.wire error))
  (h : item.Within P) (hkey : ∀ a data, item.Takes data a → Q (key a))

include hspace hwire h hkey

/-- All that was read before is fit to be compared with what is read next. -/
theorem keyedOnto (check : KeyCheck) : ∀ (n : Nat) (acc : List α), (∀ a ∈ acc, Q (key a)) →
    (Read.keyedOnto check key item n acc).Within P := by
  intro n
  induction n with
  | zero => exact fun acc _ => done acc
  | succ n ih =>
    intro acc hacc
    refine bind h fun a data ha => ?_
    have hka := hkey a data ha
    have hcheck : ContractKit.Confined P (check.accepts (acc.head?.map key) (key a)) := by
      refine check.confined_keySpace hspace hwire (fun k hk => ?_) hka
      obtain ⟨b, hb, rfl⟩ := Option.map_eq_some_iff.mp hk
      exact hacc b (List.mem_of_head? hb)
    split
    · rename_i f heq
      exact fail (hcheck f heq)
    · apply ih
      intro b hb
      rcases List.mem_cons.mp hb with rfl | hb
      · exact hka
      · exact hacc b hb

/-- Items whose keys are fit to be keys together are read without any fault but wire errors. -/
theorem keyed (width : PrefixWidth) (check : KeyCheck) :
    (Read.keyed width check key item).Within P := by
  refine bind ((Confined.count width).within hwire) fun n _ _ => map ?_
  exact keyedOnto hspace hwire h hkey check n [] (by simp)

end Keyed

theorem entry {k v : Read Value} (hk : k.Within P) (hv : v.Within P) : (Read.entry k v).Within P :=
  bind hk fun _ _ _ => map hv

end Within

end Read

end ContractKit
