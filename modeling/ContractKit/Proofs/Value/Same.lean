import ContractKit.Value.Equality
import Mathlib.Data.List.Forall2

/-!
# `Proofs/Value/Same.lean`: the same value, written in another order

Two values are the same when they have the same class at every node and differ, if at all, in the
order in which sets and maps hold their members and entries. That is finer than `beq`, which
identifies a truth value with a number and a tuple with a record.
-/

set_option autoImplicit false

namespace ContractKit.Value

mutual

/-- Whether two values are the same but for the order inside sets and maps. -/
def Same : Value → Value → Prop
  | .list xs, v => ∃ ys, v = .list ys ∧ SameAll xs ys
  | .tuple xs, v => ∃ ys, v = .tuple ys ∧ SameAll xs ys
  | .record cls xs, v => ∃ ys, v = .record cls ys ∧ SameAll xs ys
  | .set xs, v => ∃ ys zs, v = .set zs ∧ SameAll xs ys ∧ ys.Perm zs
  | .frozenset xs, v => ∃ ys zs, v = .frozenset zs ∧ SameAll xs ys ∧ ys.Perm zs
  | .dict es, v => ∃ fs gs, v = .dict gs ∧ SameEntries es fs ∧ fs.Perm gs
  | .ok a, v => ∃ b, v = .ok b ∧ Same a b
  | .err a, v => ∃ b, v = .err b ∧ Same a b
  | a, v => v = a

/-- The same for lists, item by item. -/
def SameAll : List Value → List Value → Prop
  | [], ys => ys = []
  | x :: xs, ys => ∃ z zs, ys = z :: zs ∧ Same x z ∧ SameAll xs zs

/-- The same for lists of entries, entry by entry. -/
def SameEntries : List (Value × Value) → List (Value × Value) → Prop
  | [], fs => fs = []
  | (k, v) :: es, fs => ∃ l w gs, fs = (l, w) :: gs ∧ Same k l ∧ Same v w ∧ SameEntries es gs

end

/-- Two entries are the same when their keys and their values are. -/
def SameEntry (e f : Value × Value) : Prop := Same e.1 f.1 ∧ Same e.2 f.2

theorem sameAll_iff : ∀ {xs ys : List Value}, SameAll xs ys ↔ List.Forall₂ Same xs ys
  | [], ys => by rw [SameAll, List.forall₂_nil_left_iff]
  | x :: xs, ys => by
    rw [SameAll, List.forall₂_cons_left_iff]
    constructor
    · rintro ⟨z, zs, rfl, hz, hzs⟩
      exact ⟨z, zs, hz, sameAll_iff.mp hzs, rfl⟩
    · rintro ⟨z, zs, hz, hzs, rfl⟩
      exact ⟨z, zs, rfl, hz, sameAll_iff.mpr hzs⟩

theorem sameEntries_iff : ∀ {es fs : List (Value × Value)},
    SameEntries es fs ↔ List.Forall₂ SameEntry es fs
  | [], fs => by rw [SameEntries, List.forall₂_nil_left_iff]
  | (k, v) :: es, fs => by
    rw [SameEntries, List.forall₂_cons_left_iff]
    constructor
    · rintro ⟨l, w, gs, rfl, hk, hv, hgs⟩
      exact ⟨(l, w), gs, ⟨hk, hv⟩, sameEntries_iff.mp hgs, rfl⟩
    · rintro ⟨⟨l, w⟩, gs, ⟨hk, hv⟩, hgs, rfl⟩
      exact ⟨l, w, gs, rfl, hk, hv, sameEntries_iff.mpr hgs⟩

mutual

theorem Same.refl : ∀ v : Value, Same v v
  | .list xs => ⟨xs, rfl, SameAll.refl xs⟩
  | .tuple xs => ⟨xs, rfl, SameAll.refl xs⟩
  | .record _ xs => ⟨xs, rfl, SameAll.refl xs⟩
  | .set xs => ⟨xs, xs, rfl, SameAll.refl xs, List.Perm.refl xs⟩
  | .frozenset xs => ⟨xs, xs, rfl, SameAll.refl xs, List.Perm.refl xs⟩
  | .dict es => ⟨es, es, rfl, SameEntries.refl es, List.Perm.refl es⟩
  | .ok a => ⟨a, rfl, Same.refl a⟩
  | .err a => ⟨a, rfl, Same.refl a⟩
  | .none | .bool _ | .int _ | .text _ | .bytes _ | .member .. | .action _ | .fault _ | .type _
  | .handle _ => by simp [Same]

theorem SameAll.refl : ∀ xs : List Value, SameAll xs xs
  | [] => rfl
  | x :: xs => ⟨x, xs, rfl, Same.refl x, SameAll.refl xs⟩

theorem SameEntries.refl : ∀ es : List (Value × Value), SameEntries es es
  | [] => rfl
  | (k, v) :: es => ⟨k, v, es, rfl, Same.refl k, Same.refl v, SameEntries.refl es⟩

end

/-! ## From the items to the whole -/

theorem SameAll.eq {xs : List Value} (hitem : ∀ x ∈ xs, ∀ y, Same x y → y = x) :
    ∀ {ys : List Value}, SameAll xs ys → ys = xs := by
  induction xs with
  | nil =>
    intro ys h
    exact h
  | cons x xs ih =>
    rintro ys ⟨z, zs, rfl, hz, hzs⟩
    rw [hitem x (by simp) z hz, ih (fun x' hx' => hitem x' (by simp [hx'])) hzs]

/-- Two records of one class are compared by their items. -/
theorem beq_record (cls : RecordClass) (xs ys : List Value) :
    (record cls xs).beq (record cls ys) = beqAll xs ys := by
  rw [beq.eq_def]
  by_cases hpos : cls.isPositional = true
  · simp only [hpos, if_true, tupleItems?]
  · simp [hpos]

theorem beqAll_of_sameAll {xs : List Value}
    (hitem : ∀ x ∈ xs, ∀ y, Same x y → x.beq y = true) :
    ∀ {ys : List Value}, SameAll xs ys → beqAll xs ys = true := by
  induction xs with
  | nil =>
    rintro ys rfl
    rw [beqAll]
  | cons x xs ih =>
    rintro ys ⟨z, zs, rfl, hz, hzs⟩
    rw [beqAll, hitem x (by simp) z hz, ih (fun x' hx' => hitem x' (by simp [hx'])) hzs]
    rfl

theorem allAmong_iff : ∀ {xs ys : List Value},
    allAmong xs ys = true ↔ ∀ x ∈ xs, ∃ y ∈ ys, x.beq y = true
  | [], ys => by simp [allAmong]
  | x :: xs, ys => by simp [allAmong, allAmong_iff]

theorem entriesAmong_iff : ∀ {es fs : List (Value × Value)},
    entriesAmong es fs = true ↔
      ∀ e ∈ es, ∃ f ∈ fs, e.1.beq f.1 = true ∧ e.2.beq f.2 = true
  | [], fs => by simp [entriesAmong]
  | (k, v) :: es, fs => by simp [entriesAmong, entriesAmong_iff]

/-- What stands opposite an item of the one list is somewhere in a rearrangement of the other. -/
theorem exists_of_forall₂_perm {α β : Type} {R : α → β → Prop} {as : List α} {bs cs : List β}
    (h : List.Forall₂ R as bs) (hperm : bs.Perm cs) {a : α} (ha : a ∈ as) : ∃ c ∈ cs, R a c := by
  induction h generalizing cs with
  | nil => cases ha
  | @cons a' b as' bs' hab _ ih =>
    rcases List.mem_cons.mp ha with rfl | ha
    · exact ⟨b, hperm.mem_iff.mp (by simp), hab⟩
    · obtain ⟨c, hc, hR⟩ := ih (List.Perm.refl _) ha
      exact ⟨c, hperm.mem_iff.mp (by simp [hc]), hR⟩

/-- Sets are equal when their members are the same in some order. -/
theorem sets_beq_of_same {xs ys zs : List Value}
    (hitem : ∀ x ∈ xs, ∀ y, Same x y → x.beq y = true) (h : SameAll xs ys) (hperm : ys.Perm zs) :
    (xs.length == zs.length && allAmong xs zs) = true := by
  rw [sameAll_iff] at h
  rw [Bool.and_eq_true, beq_iff_eq, allAmong_iff]
  refine ⟨h.length_eq.trans hperm.length_eq, fun x hx => ?_⟩
  obtain ⟨z, hz, hxz⟩ := exists_of_forall₂_perm h hperm hx
  exact ⟨z, hz, hitem x hx z hxz⟩

/-- Maps are equal when their entries are the same in some order. -/
theorem maps_beq_of_same {es fs gs : List (Value × Value)}
    (hitem : ∀ e ∈ es, (∀ y, Same e.1 y → e.1.beq y = true) ∧ ∀ y, Same e.2 y → e.2.beq y = true)
    (h : SameEntries es fs) (hperm : fs.Perm gs) :
    (es.length == gs.length && entriesAmong es gs) = true := by
  rw [sameEntries_iff] at h
  rw [Bool.and_eq_true, beq_iff_eq, entriesAmong_iff]
  refine ⟨h.length_eq.trans hperm.length_eq, fun e he => ?_⟩
  obtain ⟨g, hg, hkey, hvalue⟩ := exists_of_forall₂_perm h hperm he
  exact ⟨g, hg, (hitem e he).1 _ hkey, (hitem e he).2 _ hvalue⟩

end ContractKit.Value
