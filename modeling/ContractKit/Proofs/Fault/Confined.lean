import ContractKit.Fault.Gather
import ContractKit.Wire.Keyed

/-!
# `Proofs/Fault/Confined.lean`: with which faults something can fail

A computation is confined to a class of faults when it fails with no others. The class is a predicate,
so one computation can be confined to several, and each part of a computation can be confined by a
lemma of its own: the notion is closed under everything that outcomes, writes and reading programs are
put together with.

A reading program is looked at as a tree, whatever bytes it is going to find. Two faults come from the
bytes alone, and `Read.Confined.run` and `Read.Confined.runAll` add them. `Read.Within` is the same said
of the runs of a program, which is less to ask: a run goes on with what was read, and not with whatever
the program would take.
-/

set_option autoImplicit false

namespace ContractKit

variable {α β : Type} {P Q : Fault → Prop}

/-- The computation fails with faults of the class only. -/
def Confined (P : Fault → Prop) (x : Except Fault α) : Prop := ∀ f, x = .error f → P f

namespace Confined

theorem ok (a : α) : Confined P (.ok a) := nofun

theorem error {f : Fault} (h : P f) : Confined P (.error f : Except Fault α) := by
  rintro _ ⟨⟩
  exact h

theorem mono {x : Except Fault α} (h : Confined P x) (hPQ : ∀ f, P f → Q f) : Confined Q x :=
  fun f hf => hPQ f (h f hf)

theorem bind {x : Except Fault α} {k : α → Except Fault β} (hx : Confined P x)
    (hk : ∀ a, x = .ok a → Confined P (k a)) : Confined P (x >>= k) := by
  cases x with
  | error f => exact error (hx f rfl)
  | ok a => exact hk a rfl

theorem map {x : Except Fault α} {g : α → β} (hx : Confined P x) : Confined P (x.map g) := by
  cases x with
  | error f => exact error (hx f rfl)
  | ok a => exact ok _

theorem locate {span : Span} {x : Except Fault α} (hx : Confined P x)
    (hlocated : ∀ f, P f → Q (f.located span)) : Confined Q (locate span x) := by
  cases x with
  | error f => exact error (hlocated f (hx f rfl))
  | ok a => exact ok a

theorem ite {c : Prop} [Decidable c] {x y : Except Fault α} (hx : Confined P x)
    (hy : Confined P y) : Confined P (if c then x else y) := by
  split
  · exact hx
  · exact hy

end Confined

/-- Keys are refused for their order or because they cannot be hashed. -/
theorem KeyCheck.confined_accepts {check : KeyCheck} {previous : Option Value} {k : Value}
    (hfollows : ∀ p, previous = some p → Confined P (follows p k))
    (hhash : k.isHashable = false → P .unhashable) : Confined P (check.accepts previous k) := by
  have hhashed : Confined P
      (if check.hashed && !k.isHashable then throw .unhashable else pure () : Except Fault Unit) := by
    split
    · rename_i h
      rw [Bool.and_eq_true, Bool.not_eq_true'] at h
      exact .error (hhash h.2)
    · exact .ok _
  unfold accepts
  cases check.ascending with
  | false => exact hhashed
  | true =>
    cases previous with
    | none => exact hhashed
    | some p => exact .bind (hfollows p rfl) fun _ _ => hhashed

/-! ## Writing -/

namespace Emit

/-- The writing is stopped by faults of the class only. -/
protected def Confined (P : Fault → Prop) (e : Emit) : Prop := ContractKit.Confined P e.toBytes

namespace Confined

variable {a b e : Emit}

theorem nothing : Emit.Confined P .nothing := ContractKit.Confined.ok _

theorem chunk (data : Bytes) : Emit.Confined P (.chunk data) := by
  rw [Emit.Confined, toBytes_chunk]
  exact ContractKit.Confined.ok _

theorem byte (b : UInt8) : Emit.Confined P (.byte b) := chunk [b]

theorem fail {f : Fault} (h : P f) : Emit.Confined P (.fail f) := ContractKit.Confined.error h

theorem mono (h : Emit.Confined P e) (hPQ : ∀ f, P f → Q f) : Emit.Confined Q e :=
  ContractKit.Confined.mono h hPQ

theorem append (ha : Emit.Confined P a) (hb : Emit.Confined P b) : Emit.Confined P (a ++ b) := by
  rw [Emit.Confined, toBytes_append]
  exact ContractKit.Confined.bind ha fun _ _ =>
    ContractKit.Confined.bind hb fun _ _ => ContractKit.Confined.ok _

theorem after {check : Except Fault Unit} (hcheck : ContractKit.Confined P check)
    (he : check = .ok () → Emit.Confined P e) : Emit.Confined P (.after check e) := by
  cases check with
  | error f => exact fail (hcheck f rfl)
  | ok u => exact he rfl

theorem each {write : α → Emit} : ∀ {as : List α}, (∀ a ∈ as, Emit.Confined P (write a)) →
    Emit.Confined P (.each write as)
  | [], _ => nothing
  | a :: as, h => by
    show Emit.Confined P (write a ++ Emit.each write as)
    exact append (h a (by simp)) (each fun b hb => h b (by simp [hb]))

/-- An integer is refused for its size at most. -/
theorem int (hrange : P (.wire .integerRange)) (format : LittleEndian.Format) (n : Int) :
    Emit.Confined P (.int format n) := by
  unfold Emit.int
  cases format.encode? n with
  | some data => exact chunk data
  | none => exact fail hrange

/-- So is a count, which may also be too large for its prefix. -/
theorem count (hrange : P (.wire .integerRange)) {width : PrefixWidth}
    (hlong : ∀ n, P (.wire (.countTooLong n width))) (n : Nat) :
    Emit.Confined P (.count width n) := by
  unfold Emit.count Emit.countInt
  split
  · exact fail (hlong n)
  · exact int hrange _ _

theorem prefixedBytes (hrange : P (.wire .integerRange)) {width : PrefixWidth}
    (hlong : ∀ n, P (.wire (.countTooLong n width))) (data : Bytes) :
    Emit.Confined P (.prefixedBytes width data) :=
  append (count hrange hlong _) (chunk data)

end Confined

end Emit

/-! ## Reading -/

namespace Read

/-- Whatever bytes the program is run on, it fails with faults of the class only. -/
def Within (P : Fault → Prop) (p : Read α) : Prop :=
  ∀ data, ContractKit.Confined P (p.run data).1

/-- A program that has to consume a whole string can fail in one more way, by leaving some of it. -/
theorem Within.runAll {p : Read α} (h : p.Within P) (htrailing : P (.wire .trailingData))
    (data : Bytes) : ContractKit.Confined P (p.runAll data) := by
  have hrun := h data
  unfold Read.runAll
  split
  · rename_i f rest heq
    exact ContractKit.Confined.error (hrun f (by rw [heq]))
  · exact ContractKit.Confined.ok _
  · exact ContractKit.Confined.error htrailing

/-- The program ends with faults of the class only, whatever it is given to read. -/
protected def Confined (P : Fault → Prop) : Read α → Prop
  | done _ => True
  | fail f => P f
  | byte next => ∀ b, (next b).Confined P
  | bytes _ next => ∀ data, (next data).Confined P

namespace Confined

/-- A program that asks for more than there is ends with one more fault. -/
theorem run {p : Read α} (h : p.Confined P) (hout : P (.wire .outOfData)) (data : Bytes) :
    ContractKit.Confined P (p.run data).1 := by
  induction p generalizing data with
  | done a => exact ContractKit.Confined.ok a
  | fail f => exact ContractKit.Confined.error h
  | byte next ih =>
    cases data with
    | nil => exact ContractKit.Confined.error hout
    | cons b data => exact ih b (h b) data
  | bytes n next ih =>
    rw [Read.run]
    split
    · exact ih _ (h _) _
    · exact ContractKit.Confined.error hout

/-- So does one that leaves bytes behind. -/
theorem runAll {p : Read α} (h : p.Confined P) (hout : P (.wire .outOfData))
    (htrailing : P (.wire .trailingData)) (data : Bytes) : ContractKit.Confined P (p.runAll data) :=
  Within.runAll (h.run hout) htrailing data

theorem mono {p : Read α} (h : p.Confined P) (hPQ : ∀ f, P f → Q f) : p.Confined Q := by
  induction p with
  | done a => trivial
  | fail f => exact hPQ f h
  | byte next ih => exact fun b => ih b (h b)
  | bytes n next ih => exact fun data => ih data (h data)

theorem bind {p : Read α} {k : α → Read β} (hp : p.Confined P) (hk : ∀ a, (k a).Confined P) :
    (p.bind k).Confined P := by
  induction p with
  | done a => exact hk a
  | fail f => exact hp
  | byte next ih => exact fun b => ih b (hp b)
  | bytes n next ih => exact fun data => ih data (hp data)

/-- Going on with a function of the result adds no fault. -/
theorem map {p : Read α} {g : α → β} (hp : p.Confined P) :
    (p.bind fun a => done (g a)).Confined P :=
  bind hp fun _ => trivial

theorem byte {next : UInt8 → Read α} (h : ∀ b, (next b).Confined P) :
    (Read.byte next).Confined P := h

theorem getBytes (n : Nat) : (Read.getBytes n).Confined P := fun _ => trivial

theorem ofExcept {x : Except Fault α} (h : ContractKit.Confined P x) :
    (Read.ofExcept x).Confined P := by
  cases x with
  | ok a => trivial
  | error f => exact h f rfl

theorem int (format : LittleEndian.Format) : (Read.int format).Confined P := map (getBytes _)

theorem count (width : PrefixWidth) : (Read.count width).Confined P := map (getBytes _)

theorem bool (hbad : ∀ b, P (.wire (.badBoolean b))) : Read.bool.Confined P := by
  refine byte fun b => ?_
  split
  · trivial
  · split
    · trivial
    · exact hbad b

theorem prefixedBytes (width : PrefixWidth) : (Read.prefixedBytes width).Confined P :=
  bind (count width) getBytes

theorem prefixedText (hutf8 : P (.wire .badUtf8)) (width : PrefixWidth) :
    (Read.prefixedText width).Confined P := by
  refine bind (prefixedBytes width) fun data => ?_
  unfold Read.textOf
  split
  · trivial
  · exact hutf8

theorem repeatOnto {item : Read α} (h : item.Confined P) :
    ∀ (n : Nat) (acc : List α), (Read.repeatOnto item n acc).Confined P
  | 0, _ => trivial
  | n + 1, acc => bind h fun a => repeatOnto h n (a :: acc)

theorem prefixedItems {item : Read α} (h : item.Confined P) (width : PrefixWidth) :
    (Read.prefixedItems width item).Confined P :=
  bind (count width) fun n => map (repeatOnto h n [])

theorem keyedOnto {check : KeyCheck} {key : α → Value} {item : Read α} (h : item.Confined P)
    (hcheck : ∀ previous k, ContractKit.Confined P (check.accepts previous k)) :
    ∀ (n : Nat) (acc : List α), (Read.keyedOnto check key item n acc).Confined P
  | 0, _ => trivial
  | n + 1, acc => bind h fun a => by
    have hkey := hcheck (acc.head?.map key) (key a)
    split
    · rename_i f heq
      exact hkey f heq
    · exact keyedOnto h hcheck n (a :: acc)

/-- What is read with its keys checked can fail as the checks do. -/
theorem keyed {check : KeyCheck} {key : α → Value} {item : Read α} (width : PrefixWidth)
    (h : item.Confined P)
    (hcheck : ∀ previous k, ContractKit.Confined P (check.accepts previous k)) :
    (Read.keyed width check key item).Confined P :=
  bind (count width) fun n => map (keyedOnto h hcheck n [])

theorem entry {key value : Read Value} (hkey : key.Confined P) (hvalue : value.Confined P) :
    (Read.entry key value).Confined P :=
  bind hkey fun _ => map hvalue

end Confined

end Read

end ContractKit
