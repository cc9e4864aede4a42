import ContractKit.Proofs.Value.KeyOrder
import ContractKit.Proofs.Wire.Programs

/-!
# `Proofs/Wire/Keyed.lean`: reading items with keys

The keys of the items are looked at one by one while they are read, each with the one before it.
`takes_keyed` takes the two apart: what is read is what reading without looking at keys would give
(`takes_prefixedItems`), and the keys, in the order in which they were read, are `Accepted`. Keys that
ascend are accepted, and where keys have to ascend no others are.
-/

set_option autoImplicit false

namespace ContractKit

open Bytes (Pieces)

namespace KeyCheck

/-- Each key is accepted after the one before it, the first of them after the given one, if any. -/
def Accepted (check : KeyCheck) : Option Value → List Value → Prop
  | _, [] => True
  | previous, key :: keys => check.accepts previous key = .ok () ∧ Accepted check (some key) keys

/-- A key is accepted when it can be one and, if keys have to ascend, is greater than the one before. -/
theorem accepts_iff {check : KeyCheck} {previous : Option Value} {key : Value} :
    check.accepts previous key = .ok () ↔
      (check.ascending = true → ∀ p, previous = some p → Value.lt? p key = some true) ∧
        (check.hashed = true → key.isHashable = true) := by
  obtain ⟨ascending, hashed⟩ := check
  have hhash : (if hashed && !key.isHashable then (throw .unhashable : Except Fault Unit)
      else pure ()) = .ok () ↔ (hashed = true → key.isHashable = true) := by
    cases hashed with
    | false => simp [pure, Except.pure]
    | true =>
      cases h : key.isHashable with
      | false => simp [throw, throwThe, MonadExceptOf.throw]
      | true => simp [pure, Except.pure]
  cases ascending with
  | false =>
    refine Iff.trans ?_ (hhash.trans ?_)
    · rfl
    · simp
  | true =>
    cases previous with
    | none =>
      refine Iff.trans ?_ (hhash.trans ?_)
      · rfl
      · simp
    | some p =>
      have hfollows : follows p key = .ok () ↔ Value.lt? p key = some true := by
        unfold follows
        cases Value.lt? p key with
        | none => simp
        | some r => cases r <;> simp
      cases hf : follows p key with
      | error f =>
        -- the check of the order comes first, so hashing is not reached
        have hne : ¬ Value.lt? p key = some true := by
          rw [← hfollows, hf]
          simp
        constructor
        · intro h
          have h : (follows p key >>= fun _ => _) = Except.ok () := h
          rw [hf] at h
          cases h
        · rintro ⟨h, -⟩
          exact absurd (h rfl p rfl) hne
      | ok u =>
        have hlt := hfollows.mp hf
        refine Iff.trans ?_ (hhash.trans ?_)
        · show (follows p key >>= fun _ => _) = Except.ok () ↔ _
          rw [hf]
          rfl
        · simp [hlt]

/-- Hashable keys that ascend are accepted under every check. -/
theorem accepted_of_ascending {check : KeyCheck} : ∀ {previous : Option Value} {keys : List Value},
    (∀ k ∈ keys, k.isHashable = true) → keys.Pairwise (fun a b => Value.lt? a b = some true) →
      (∀ p, previous = some p → ∀ k ∈ keys, Value.lt? p k = some true) →
        check.Accepted previous keys
  | _, [], _, _, _ => trivial
  | previous, k :: keys, hhash, hasc, hprevious => by
    obtain ⟨hk, hasc⟩ := List.pairwise_cons.mp hasc
    refine ⟨accepts_iff.mpr ⟨fun _ p hp => hprevious p hp k (by simp), fun _ => hhash k (by simp)⟩, ?_⟩
    refine accepted_of_ascending (fun l hl => hhash l (by simp [hl])) hasc ?_
    rintro p hp l hl
    cases hp
    exact hk l hl

/-- Where keys have to ascend, those that are accepted do: each is greater than the one before, so it
is greater than all before it. -/
theorem ascending_of_accepted {check : KeyCheck} {P : Value → Prop} (h : Value.KeySpace P)
    (hcheck : check.ascending = true) : ∀ {keys : List Value}, (∀ k ∈ keys, P k) →
      ∀ {previous : Option Value}, check.Accepted previous keys →
        keys.Pairwise (fun a b => Value.lt? a b = some true)
  | [], _, _, _ => List.Pairwise.nil
  | [k], _, _, _ => by simp
  | k :: l :: keys, hP, _, ⟨_, hl, hkeys⟩ => by
    have hasc : (l :: keys).Pairwise (fun a b => Value.lt? a b = some true) :=
      ascending_of_accepted h hcheck (fun x hx => hP x (by simp [hx]))
        (show check.Accepted (some k) (l :: keys) from ⟨hl, hkeys⟩)
    have hkl : Value.lt? k l = some true := (accepts_iff.mp hl).1 hcheck k rfl
    refine List.pairwise_cons.mpr ⟨fun x hx => ?_, hasc⟩
    rcases List.mem_cons.mp hx with rfl | hx
    · exact hkl
    -- only neighbours are compared; the others follow since the order is transitive
    · have hlx := (List.pairwise_cons.mp hasc).1 x hx
      exact h.strict.less_trans (hP k (by simp)) (hP l (by simp)) (hP x (by simp [hx])) hkl hlx

/-- A check that does not ask for ascending keys accepts what one that does accepts. -/
theorem Accepted.weaken {strong weak : KeyCheck}
    (hasc : weak.ascending = true → strong.ascending = true)
    (hhash : weak.hashed = true → strong.hashed = true) :
    ∀ {keys : List Value} {previous : Option Value}, strong.Accepted previous keys →
      weak.Accepted previous keys
  | [], _, _ => trivial
  | _ :: _, _, ⟨hk, hkeys⟩ => by
    obtain ⟨h1, h2⟩ := accepts_iff.mp hk
    exact ⟨accepts_iff.mpr ⟨fun h => h1 (hasc h), fun h => h2 (hhash h)⟩,
      Accepted.weaken hasc hhash hkeys⟩

end KeyCheck

namespace Read

variable {α : Type} {check : KeyCheck} {key : α → Value} {item : Read α}

/-- The accumulator holds what was read before, latest first, so its head has the key before. -/
theorem takes_keyedOnto : ∀ {n : Nat} {acc : List α} {data : Bytes} {xs : List α},
    (keyedOnto check key item n acc).Takes data xs ↔
      ∃ as, as.length = n ∧ xs = as.reverse ++ acc ∧ Pieces (fun a d => item.Takes d a) as data ∧
        check.Accepted (acc.head?.map key) (as.map key)
  | 0, acc, data, xs => by
    simp only [keyedOnto, Takes]
    constructor
    · rintro ⟨rfl, rfl⟩
      exact ⟨[], rfl, rfl, rfl, trivial⟩
    · rintro ⟨as, hlen, rfl, hpieces, -⟩
      obtain rfl := List.length_eq_zero_iff.mp hlen
      exact ⟨hpieces, rfl⟩
  -- what was read before is only asked for its last key
  | n + 1, acc, data, xs => by
    rw [keyedOnto, takes_bind]
    constructor
    · rintro ⟨a, front, rest, rfl, ha, h⟩
      cases hacc : check.accepts (acc.head?.map key) (key a) with
      | error f =>
        rw [hacc] at h
        exact h.elim
      | ok u =>
        rw [hacc] at h
        obtain ⟨as, hlen, rfl, hpieces, hkeys⟩ := takes_keyedOnto.mp h
        exact ⟨a :: as, by simp [hlen], by simp, ⟨front, rest, rfl, ha, hpieces⟩, hacc, hkeys⟩
    · rintro ⟨as, hlen, rfl, hpieces, hkeys⟩
      cases as with
      | nil => cases hlen
      | cons a as =>
        obtain ⟨front, rest, rfl, ha, hpieces⟩ := hpieces
        obtain ⟨hacc, hkeys⟩ := hkeys
        refine ⟨a, front, rest, rfl, ha, ?_⟩
        rw [hacc]
        exact takes_keyedOnto.mpr ⟨as, by simpa using hlen, by simp, hpieces, hkeys⟩

/-- **Items with keys are items behind a count whose keys are accepted.** Keys are checked while the
items are read; as the checks look at the keys alone, they can be made afterwards. -/
theorem takes_keyed {width : PrefixWidth} {data : Bytes} {as : List α} :
    (keyed width check key item).Takes data as ↔
      (prefixedItems width item).Takes data as ∧ check.Accepted none (as.map key) := by
  rw [takes_prefixedItems, keyed, takes_bind]
  constructor
  · rintro ⟨n, front, rest, rfl, hcount, h⟩
    obtain ⟨rev, hrev, rfl⟩ := takes_map.mp h
    obtain ⟨as, rfl, rfl, hpieces, hkeys⟩ := takes_keyedOnto.mp hrev
    simp only [List.append_nil, List.reverse_reverse]
    exact ⟨⟨front, rest, rfl, takes_count.mp hcount, hpieces⟩, hkeys⟩
  · rintro ⟨⟨front, rest, rfl, hcount, hpieces⟩, hkeys⟩
    refine ⟨as.length, front, rest, rfl, takes_count.mpr hcount, takes_map.mpr ⟨as.reverse, ?_, by simp⟩⟩
    exact takes_keyedOnto.mpr ⟨as, rfl, by simp, hpieces, hkeys⟩

/-- An entry is its key and then its value. -/
theorem takes_entry {k v : Read Value} {data : Bytes} {e : Value × Value} :
    (entry k v).Takes data e ↔
      ∃ front rest, data = front ++ rest ∧ k.Takes front e.1 ∧ v.Takes rest e.2 := by
  rw [entry, takes_bind]
  constructor
  · rintro ⟨x, front, rest, rfl, hx, h⟩
    obtain ⟨y, hy, rfl⟩ := takes_map.mp h
    exact ⟨front, rest, rfl, hx, hy⟩
  · rintro ⟨front, rest, rfl, hx, hy⟩
    exact ⟨e.1, front, rest, rfl, hx, takes_map.mpr ⟨e.2, hy, rfl⟩⟩

end Read

end ContractKit
