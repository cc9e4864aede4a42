import ContractKit.Proofs.Wire.Programs

/-!
# `Proofs/Wire/Ending.lean`: programs that end inside of a string

A program that takes a string looks at nothing behind it. One that fails may well have asked for bytes
that stand there. `Read.Ends` says that it has not: whatever follows the string, the program takes all
of the string, or it fails and leaves a part of the string together with what follows. So its outcome
is that on the string alone (`Ends.run_append`).

A program in parts ends inside of a string if each part, after those before it have taken theirs, ends
inside of its own piece.
-/

set_option autoImplicit false

namespace ContractKit.Read

open Bytes (Pieces)

variable {α β γ : Type}

/-- The program takes the string or fails inside of it, whatever follows. -/
def Ends (p : Read α) (data : Bytes) : Prop :=
  (∃ a, p.Takes data a) ∨ ∃ f left, ∀ rest, p.run (data ++ rest) = (.error f, left ++ rest)

/-- A program that takes a string leaves what follows. -/
theorem Takes.run_append {p : Read α} {data : Bytes} {a : α} (h : p.Takes data a) (rest : Bytes) :
    p.run (data ++ rest) = (.ok a, rest) :=
  run_eq_ok_iff.mpr ⟨data, rfl, h⟩

namespace Ends

variable {p : Read α} {item : Read α} {data front rest : Bytes}

theorem takes {a : α} (h : p.Takes data a) : p.Ends data := .inl ⟨a, h⟩

theorem done (a : α) : (Read.done a).Ends [] := takes ⟨rfl, rfl⟩

theorem fail (f : Fault) (data : Bytes) : (Read.fail f : Read α).Ends data :=
  .inr ⟨f, data, fun _ => rfl⟩

theorem ofExcept (outcome : Except Fault α) : (Read.ofExcept outcome).Ends [] := by
  cases outcome with
  | ok a => exact done a
  | error f => exact fail f []

/-- A part that takes its piece leaves the rest of the string to what follows it. -/
theorem bind_takes {k : α → Read β} {a : α} (ha : p.Takes front a) (hk : (k a).Ends rest) :
    (p.bind k).Ends (front ++ rest) := by
  rcases hk with ⟨b, hb⟩ | ⟨f, left, hrun⟩
  · exact takes (takes_bind.mpr ⟨a, front, rest, rfl, ha, hb⟩)
  · refine .inr ⟨f, left, fun tail => ?_⟩
    rw [List.append_assoc, run_bind, ha.run_append]
    exact hrun tail

/-- What follows a part is asked only about results that the part takes its piece for. -/
theorem bind {k : α → Read β} (hp : p.Ends front) (hk : ∀ a, p.Takes front a → (k a).Ends rest) :
    (p.bind k).Ends (front ++ rest) := by
  rcases hp with ⟨a, ha⟩ | ⟨f, left, hrun⟩
  · exact bind_takes ha (hk a ha)
  · refine .inr ⟨f, left ++ rest, fun tail => ?_⟩
    rw [List.append_assoc, run_bind, hrun, List.append_assoc]

theorem map {g : α → β} (hp : p.Ends data) : (p.bind fun a => Read.done (g a)).Ends data := by
  rw [← List.append_nil data]
  exact hp.bind fun a _ => done (g a)

theorem byte {next : UInt8 → Read α} {b : UInt8} (h : (next b).Ends rest) :
    (Read.byte next).Ends (b :: rest) := by
  rcases h with ⟨a, ha⟩ | ⟨f, left, hrun⟩
  · exact takes ⟨b, rest, rfl, ha⟩
  · exact .inr ⟨f, left, hrun⟩

/-- **The outcome is that on the string alone**, and what follows is left. -/
theorem run_append (h : p.Ends data) (rest : Bytes) :
    p.run (data ++ rest) = ((p.run data).1, (p.run data).2 ++ rest) := by
  rcases h with ⟨a, ha⟩ | ⟨f, left, hrun⟩
  · have hdata := ha.run_append []
    rw [List.append_nil] at hdata
    rw [ha.run_append, hdata, List.nil_append]
  · have hdata := hrun []
    rw [List.append_nil, List.append_nil] at hdata
    rw [hrun, hdata]

/-! ### Items behind a count -/

section Items

variable {xs : List γ} (hitems : Pieces (fun _ d => item.Ends d) xs data)

include hitems

theorem repeatOnto (acc : List α) : (Read.repeatOnto item xs.length acc).Ends data := by
  induction xs generalizing data acc with
  | nil =>
    obtain rfl : data = [] := hitems
    exact done acc
  | cons x xs ih =>
    obtain ⟨front, rest, rfl, hitem, hitems⟩ := hitems
    exact hitem.bind fun a _ => ih hitems (a :: acc)

/-- A key that is refused ends the reading where its item ends. -/
theorem keyedOnto (check : KeyCheck) (key : α → Value) (acc : List α) :
    (Read.keyedOnto check key item xs.length acc).Ends data := by
  induction xs generalizing data acc with
  | nil =>
    obtain rfl : data = [] := hitems
    exact done acc
  | cons x xs ih =>
    obtain ⟨front, rest, rfl, hitem, hitems⟩ := hitems
    refine hitem.bind fun a _ => ?_
    split
    · exact fail _ rest
    · exact ih hitems (a :: acc)

variable {width : PrefixWidth} (hcount : (Emit.count width xs.length).toBytes = .ok front)

include hcount

theorem prefixedItems : (Read.prefixedItems width item).Ends (front ++ data) :=
  bind_takes (takes_count.mpr hcount) (map (repeatOnto hitems []))

theorem keyed (check : KeyCheck) (key : α → Value) :
    (Read.keyed width check key item).Ends (front ++ data) :=
  bind_takes (takes_count.mpr hcount) (map (keyedOnto hitems check key []))

end Items

theorem entry {k v : Read Value} (hk : k.Ends front) (hv : v.Ends rest) :
    (Read.entry k v).Ends (front ++ rest) :=
  hk.bind fun _ _ => map hv

end Ends

end ContractKit.Read
